import Mathlib.Order.Bounds.Defs
import ModifiedUtf8.Proofs.Storing

/-!
# What a bounded write keeps

A bounded write keeps the longest leading part of its units that leaves room for a terminator
(`writeUnits_keeps_longest`): `fitting` stops at the first item that is too large, and every longer
part holds that item, too (`le_length_fitting`).

The choice is made unit by unit, so it may fall between the halves of a pair.  The text of what was
kept is a leading part of the text of all units exactly if it does not
(`decode_writeUnits_prefix_iff`).

A bounded length adds up just the sizes of the units that fit into as much room (`boundedFrom_eq`), so
that it is the number of bytes that a write of that capacity keeps (`boundedLength_eq_writeUnits`).
-/

namespace ModifiedUtf8

/-! ## The longest part that fits -/

section LongestPart

variable {α : Type} (size : α → Nat) {room : Nat}

theorem le_length_fitting {items : List α} {j : Nat} (le : j ≤ items.length)
    (fits : totalSize size (items.take j) < room) : j ≤ (fitting size room items).length := by
  induction items generalizing room j with
  | nil => exact le
  | cons x rest ih =>
    cases j with
    | zero => exact Nat.zero_le _
    | succ j =>
      rw [List.take_succ_cons, totalSize_cons] at fits
      have first : size x < room := by omega
      have others : totalSize size (rest.take j) < room - size x := by omega
      rw [fitting, if_pos first, List.length_cons]
      exact Nat.succ_le_succ (ih (Nat.le_of_succ_le_succ le) others)

theorem fitting_eq_take (room : Nat) (items : List α) :
    fitting size room items = items.take (fitting size room items).length := by
  apply List.prefix_iff_eq_take.1
  exact fitting_prefix size room items

theorem isGreatest_length_fitting (pos : 0 < room) (items : List α) :
    IsGreatest {j | j ≤ items.length ∧ totalSize size (items.take j) < room}
      (fitting size room items).length := by
  have part := fitting_prefix size room items
  constructor
  · refine ⟨part.length_le, ?_⟩
    rw [← fitting_eq_take]
    exact totalSize_fitting_lt size pos items
  · intro j within
    exact le_length_fitting size within.1 within.2

theorem length_fitting_lt_iff (positive : ∀ x, 0 < size x) (room : Nat) (items : List α) :
    (fitting size room items).length < items.length ↔
      totalSize size (fitting size room items) < totalSize size items := by
  have all := length_fitting_eq_iff size positive room items
  have part := fitting_prefix size room items
  have shorter := part.length_le
  have smaller : totalSize size (fitting size room items) ≤ totalSize size items := by
    obtain ⟨left, split⟩ := part
    have sum := totalSize_append size (fitting size room items) left
    rw [split] at sum
    omega
  omega

end LongestPart

/-! ## Units in a buffer -/

/-- All that `writeUnits` does, by the number of units that it keeps. -/
theorem exists_writeUnits_eq (w : Width) (units : List Int) {buffer : Bytes} {capacity : Nat}
    (pos : 0 < capacity) (le : capacity ≤ buffer.length) :
    ∃ k, IsGreatest {j | j ≤ units.length ∧ encodedLength w (units.take j) < capacity} k ∧
      (k < units.length ↔ encodedLength w (units.take k) < encodedLength w units) ∧
      writeUnits w units (.int capacity) buffer =
        ⟨encodeStored w (units.take k) ++ 0 :: buffer.drop (encodedLength w (units.take k) + 1),
          if k < units.length then [.encodingCut k units.length] else [],
          .ok (encodedLength w (units.take k))⟩ := by
  have written : writeUnits w units (.int capacity) buffer = _ :=
    writeUnits_of_capacityOf (Size.capacityOf_natCast pos le)
  have cut := length_fitting_lt_iff _ (encodedSize_pos w) capacity units
  have kept := fitting_eq_take (encodedSize w) capacity units
  refine ⟨_, isGreatest_length_fitting (encodedSize w) pos units, ?_, ?_⟩
  · rw [← kept]
    exact cut
  · rw [← kept]
    exact written

/-- `writeUnits` keeps the longest part that fits with a terminator, and logs a cut if it is not all. -/
theorem writeUnits_keeps_longest (w : Width) (units : List Int) {buffer : Bytes} {capacity : Nat}
    (pos : 0 < capacity) (le : capacity ≤ buffer.length) :
    ∃ k content log r data,
      writeUnits w units (.int capacity) buffer = ⟨content, log, .ok r⟩ ∧
      IsGreatest {j | j ≤ units.length ∧ encodedLength w (units.take j) < capacity} k ∧
      r = encodedLength w (units.take k) ∧
      encodeMeasured w (units.take k) = .ok data ∧ content.take r = data ∧
      content[r]? = some 0 ∧
      log = (if k < units.length then [.encodingCut k units.length] else []) ∧
      (k < units.length ↔ r < encodedLength w units) := by
  obtain ⟨k, longest, cut, written⟩ := exists_writeUnits_eq w units pos le
  refine ⟨k, _, _, _, _, written, longest, rfl, encodeMeasured_eq w _, ?_, ?_, rfl, cut⟩
  · rw [← length_encodeStored, List.take_left]
  · rw [← length_encodeStored, List.getElem?_append_right (Nat.le_refl _), Nat.sub_self]
    rfl

/-- A letter, a unit too large for its width and half a pair; the other half leaves no room. -/
theorem writeUnits_keeps_longest_of_masked_unit :
    0 < 8 ∧ 8 ≤ ([0xFF, 0xFF, 0xFF, 0xFF, 0xFF, 0xFF, 0xFF, 0xFF, 0xFF] : Bytes).length ∧
    writeUnits .wide [0x41, 0x1020AC, 0xD83D, 0xDE00] (.int 8)
        [0xFF, 0xFF, 0xFF, 0xFF, 0xFF, 0xFF, 0xFF, 0xFF, 0xFF] =
      ⟨[0x41, 0xE2, 0x82, 0xAC, 0xED, 0xA0, 0xBD, 0x00, 0xFF], [.encodingCut 3 4], .ok 7⟩ ∧
    IsGreatest {j | j ≤ 4 ∧ encodedLength .wide ([0x41, 0x1020AC, 0xD83D, 0xDE00].take j) < 8} 3 ∧
    7 < encodedLength .wide [0x41, 0x1020AC, 0xD83D, 0xDE00] := by
  have le : 8 ≤ ([0xFF, 0xFF, 0xFF, 0xFF, 0xFF, 0xFF, 0xFF, 0xFF, 0xFF] : Bytes).length := by decide
  have run : writeUnits .wide [0x41, 0x1020AC, 0xD83D, 0xDE00] (.int 8)
      [0xFF, 0xFF, 0xFF, 0xFF, 0xFF, 0xFF, 0xFF, 0xFF, 0xFF] =
        ⟨[0x41, 0xE2, 0x82, 0xAC, 0xED, 0xA0, 0xBD, 0x00, 0xFF], [.encodingCut 3 4], .ok 7⟩ := rfl
  obtain ⟨k, content, log, r, data, written, longest, -, -, -, -, logged, cut⟩ :=
    writeUnits_keeps_longest .wide [0x41, 0x1020AC, 0xD83D, 0xDE00] (by decide) le
  obtain ⟨-, rfl, size⟩ := Outcome.mk.inj (run.symm.trans written)
  obtain rfl := Except.ok.inj size
  obtain rfl : k = 3 := by
    split at logged
    · cases logged
      rfl
    · cases logged
  exact ⟨by decide, le, run, longest, cut.1 (by decide)⟩

/-! ## Pairs at the cut -/

/-- A high surrogate stands before an index, and a low one at it. -/
def SplitsPair (units : List Int) (k : Nat) : Prop :=
  ∃ high low, (units.take k).getLast? = some high ∧ (units.drop k).head? = some low ∧
    (0xD800 ≤ high ∧ high ≤ 0xDBFF) ∧ (0xDC00 ≤ low ∧ low ≤ 0xDFFF)

theorem isHigh_ofUnit_iff (unit : CodeUnit) : (CodePoint.ofUnit unit).isHigh = true ↔
    0xD800 ≤ (unit.toNat : Int) ∧ (unit.toNat : Int) ≤ 0xDBFF := by
  rw [CodePoint.isHigh_iff, CodePoint.val_ofUnit]
  omega

theorem isLow_ofUnit_iff (unit : CodeUnit) : (CodePoint.ofUnit unit).isLow = true ↔
    0xDC00 ≤ (unit.toNat : Int) ∧ (unit.toNat : Int) ≤ 0xDFFF := by
  rw [CodePoint.isLow_iff, CodePoint.val_ofUnit]
  omega

theorem splitsPair_iff_cutsPair (units : List CodeUnit) (k : Nat) :
    SplitsPair (units.map fun unit => (unit.toNat : Int)) k ↔
      Text.CutsPair ((units.take k).map CodePoint.ofUnit)
        ((units.drop k).map CodePoint.ofUnit) := by
  unfold SplitsPair Text.CutsPair
  rw [← List.map_take, ← List.map_drop]
  simp only [List.getLast?_map, List.head?_map, Option.map_eq_some_iff]
  constructor
  · rintro ⟨-, -, ⟨high, last, rfl⟩, ⟨low, first, rfl⟩, isHigh, isLow⟩
    exact ⟨_, _, ⟨high, last, rfl⟩, (isHigh_ofUnit_iff high).2 isHigh, ⟨low, first, rfl⟩,
      (isLow_ofUnit_iff low).2 isLow⟩
  · rintro ⟨-, -, ⟨high, last, rfl⟩, isHigh, ⟨low, first, rfl⟩, isLow⟩
    exact ⟨_, _, ⟨high, last, rfl⟩, ⟨low, first, rfl⟩, (isHigh_ofUnit_iff high).1 isHigh,
      (isLow_ofUnit_iff low).1 isLow⟩

/-- What `writeUnits` keeps decodes to a leading part of the whole text unless it splits a pair. -/
theorem decode_writeUnits_prefix_iff {units : List Int} (inRange : AllUnits units) {buffer : Bytes}
    {capacity : Nat} (pos : 0 < capacity) (le : capacity ≤ buffer.length) :
    ∃ k content log r text whole,
      writeUnits .wide units (.int capacity) buffer = ⟨content, log, .ok r⟩ ∧
      IsGreatest {j | j ≤ units.length ∧ encodedLength .wide (units.take j) < capacity} k ∧
      decode .strict (content.take r) = .ok text ∧ Text.ofIntegers? units = .ok whole ∧
      text.dropLast <+: whole ∧ (text <+: whole ↔ ¬ SplitsPair units k) := by
  obtain ⟨k, longest, -, written⟩ := exists_writeUnits_eq .wide units pos le
  obtain ⟨stored, rfl⟩ : ∃ stored : List CodeUnit,
      units = stored.map fun unit => (unit.toNat : Int) :=
    ⟨_, (map_toNat_store (w := .wide) inRange).symm⟩
  have parts : stored.map CodePoint.ofUnit =
      (stored.take k).map CodePoint.ofUnit ++ (stored.drop k).map CodePoint.ofUnit := by
    rw [← List.map_append, List.take_append_drop]
  refine ⟨k, _, _, _, Text.ofUnits (stored.take k), Text.ofUnits stored, written, longest, ?_,
    ofIntegers?_map_toNat stored, ?_, ?_⟩
  · rw [← length_encodeStored, List.take_left, ← List.map_take, encodeStored_wide_toNat]
    exact decode_encodeUnits .strict _
  · rw [Text.ofUnits, Text.ofUnits, parts]
    exact Text.dropLast_joinSurrogates_prefix _ _
  · rw [Text.ofUnits, Text.ofUnits, parts, splitsPair_iff_cutsPair]
    exact Text.joinSurrogates_prefix_iff _ _

/-- A letter and a pair that fit, and a euro sign that does not. -/
theorem decode_writeUnits_prefix_iff_of_euro :
    AllUnits [0x41, 0xD83D, 0xDE00, 0x20AC] ∧ 0 < 8 ∧ 8 ≤ (zeros 8).length ∧
    writeUnits .wide [0x41, 0xD83D, 0xDE00, 0x20AC] (.int 8) (zeros 8) =
      ⟨[0x41, 0xED, 0xA0, 0xBD, 0xED, 0xB8, 0x80, 0x00], [.encodingCut 3 4], .ok 7⟩ ∧
    ∃ text whole, decode .strict [0x41, 0xED, 0xA0, 0xBD, 0xED, 0xB8, 0x80] = .ok text ∧
      Text.ofIntegers? [0x41, 0xD83D, 0xDE00, 0x20AC] = .ok whole ∧ text <+: whole := by
  have inRange : AllUnits [0x41, 0xD83D, 0xDE00, 0x20AC] := by
    unfold AllUnits
    decide
  have le : 8 ≤ (zeros 8).length := by decide
  have run : writeUnits .wide [0x41, 0xD83D, 0xDE00, 0x20AC] (.int 8) (zeros 8) =
      ⟨[0x41, 0xED, 0xA0, 0xBD, 0xED, 0xB8, 0x80, 0x00], [.encodingCut 3 4], .ok 7⟩ := rfl
  obtain ⟨k, content, log, r, text, whole, written, longest, read, joined, -, iff⟩ :=
    decode_writeUnits_prefix_iff inRange (by decide) le
  obtain ⟨rfl, -, size⟩ := Outcome.mk.inj (run.symm.trans written)
  obtain rfl := Except.ok.inj size
  refine ⟨inRange, by decide, le, run, text, whole, read, joined, iff.2 ?_⟩
  have ge : 3 ≤ k := longest.2 ⟨by decide, by decide⟩
  have most : k ≤ 4 := longest.1.1
  obtain rfl | rfl : k = 3 ∨ k = 4 := by omega
  · rintro ⟨high, low, last, -, isHigh, -⟩
    obtain rfl : 0xDE00 = high := Option.some.inj last
    omega
  · exact absurd longest.1.2 (by decide)

/-- Room for one half of a pair is used for it. -/
theorem decode_writeUnits_of_split_pair :
    writeUnits .wide [0xD83D, 0xDE00] (.int 4) (zeros 4) =
      ⟨[0xED, 0xA0, 0xBD, 0x00], [.encodingCut 1 2], .ok 3⟩ ∧
    decode .strict [0xED, 0xA0, 0xBD] = .ok [0xD83D] ∧
    Text.ofIntegers? [0xD83D, 0xDE00] = .ok [0x1F600] ∧
    ¬ ∀ (units : List Int) (buffer : Bytes) (capacity : Nat), AllUnits units → 0 < capacity →
      capacity ≤ buffer.length → ∃ content log r text whole,
        writeUnits .wide units (.int capacity) buffer = ⟨content, log, .ok r⟩ ∧
        decode .strict (content.take r) = .ok text ∧ Text.ofIntegers? units = .ok whole ∧
        text <+: whole := by
  have run : writeUnits .wide [0xD83D, 0xDE00] (.int 4) (zeros 4) =
      ⟨[0xED, 0xA0, 0xBD, 0x00], [.encodingCut 1 2], .ok 3⟩ := rfl
  have half : decode .strict [0xED, 0xA0, 0xBD] = .ok [0xD83D] := by decide
  have pair : Text.ofIntegers? [0xD83D, 0xDE00] = .ok [0x1F600] := by decide
  refine ⟨run, half, pair, fun always => ?_⟩
  obtain ⟨content, log, r, text, whole, written, read, joined, within⟩ :=
    always [0xD83D, 0xDE00] (zeros 4) 4 (by unfold AllUnits; decide) (by decide) (by decide)
  obtain ⟨rfl, -, size⟩ := Outcome.mk.inj (run.symm.trans written)
  obtain rfl := Except.ok.inj size
  obtain rfl := Except.ok.inj (half.symm.trans read)
  obtain rfl := Except.ok.inj (pair.symm.trans joined)
  exact absurd within (by decide)

/-! ## Lengths below a maximum -/

/-- Sizes added up below a limit are those of what fits into the room up to it. -/
theorem boundedFrom_eq (w : Width) {limit : Int} {total room : Nat} (h : limit + 1 = total + room)
    (units : List Int) : boundedFrom w limit total units =
      total + encodedLength w (fitting (encodedSize w) room units) := by
  induction units generalizing total room with
  | nil => rfl
  | cons unit rest ih =>
    by_cases fits : encodedSize w unit < room
    · -- the unit takes from the room what it adds to the total
      have within : ¬ limit < (total : Int) + encodedSize w unit := by omega
      have left : limit + 1 = ↑(total + encodedSize w unit) + ↑(room - encodedSize w unit) := by omega
      rw [boundedFrom, if_neg within, ih left, fitting, if_pos fits]
      simp [encodedLength, totalSize_cons, Nat.add_assoc]
    · have beyond : limit < (total : Int) + encodedSize w unit := by omega
      rw [boundedFrom, if_pos beyond, fitting, if_neg fits]
      rfl

theorem boundedLength_eq_fitting (w : Width) (units : List Int) (max : Nat) :
    boundedLength w max units = encodedLength w (fitting (encodedSize w) max units) := by
  have room : (max : Int) - 1 + 1 = ((0 : Nat) : Int) + max := by omega
  simpa [boundedLength] using boundedFrom_eq w room units

/-- `boundedLength` is the size of the longest part below a maximum, which is what `writeUnits` returns. -/
theorem boundedLength_eq_writeUnits (w : Width) (units : List Int) {max : Nat} (pos : 0 < max) :
    ∃ k, IsGreatest {j | j ≤ units.length ∧ encodedLength w (units.take j) < max} k ∧
      boundedLength w max units = encodedLength w (units.take k) ∧
      boundedLength w max units + 1 ≤ max ∧
      (boundedLength w max units = encodedLength w units ↔ encodedLength w units < max) ∧
      ∀ buffer : Bytes, max ≤ buffer.length →
        (writeUnits w units (.int max) buffer).result = .ok (boundedLength w max units) := by
  have below := totalSize_fitting_lt (encodedSize w) pos units
  rw [boundedLength_eq_fitting]
  refine ⟨_, isGreatest_length_fitting (encodedSize w) pos units, ?_, below, ?_, ?_⟩
  · rw [← fitting_eq_take]
  · constructor
    · intro all
      rw [← all]
      exact below
    · intro fits
      rw [fitting_of_totalSize_lt (encodedSize w) fits]
  · intro buffer le
    rw [writeUnits_of_capacityOf (Size.capacityOf_natCast pos le)]

/-- A euro sign and a zero that do not fit together, and a letter that would. -/
theorem boundedLength_eq_writeUnits_of_zero :
    0 < 6 ∧ 6 ≤ (zeros 9).length ∧
    boundedLength .wide 6 [0x41, 0x20AC, 0, 0x42] = 4 ∧
    encodedLength .wide [0x41, 0x20AC, 0, 0x42] = 7 ∧
    IsGreatest {j | j ≤ 4 ∧ encodedLength .wide ([0x41, 0x20AC, 0, 0x42].take j) < 6} 2 ∧
    (writeUnits .wide [0x41, 0x20AC, 0, 0x42] (.int 6) (zeros 9)).result = .ok 4 := by
  have pos : 0 < 6 := by decide
  have le : 6 ≤ (zeros 9).length := by decide
  have length : boundedLength .wide 6 [0x41, 0x20AC, 0, 0x42] = 4 := by decide
  have total : encodedLength .wide [0x41, 0x20AC, 0, 0x42] = 7 := by decide
  obtain ⟨k, longest, size, -, -, written⟩ :=
    boundedLength_eq_writeUnits .wide [0x41, 0x20AC, 0, 0x42] pos
  have two : k = 2 := by
    have ge : 2 ≤ k := longest.2 ⟨by decide, by decide⟩
    have most : k ≤ 4 := longest.1.1
    have part : (4 : Nat) = encodedLength .wide ([0x41, 0x20AC, 0, 0x42].take k) := size
    obtain rfl | rfl | rfl : k = 2 ∨ k = 3 ∨ k = 4 := by omega
    · rfl
    · exact absurd part (by decide)
    · exact absurd part (by decide)
  rw [two] at longest
  exact ⟨pos, le, length, total, longest, written (zeros 9) le⟩

end ModifiedUtf8
