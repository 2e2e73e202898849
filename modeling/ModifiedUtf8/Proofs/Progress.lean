import ModifiedUtf8.Proofs.Offsets
import ModifiedUtf8.Proofs.Rendering
import ModifiedUtf8.Proofs.Storing

/-!
# Progress

At every offset inside the bytes, also in the middle of a sequence, a reader finds a unit or a character.
It uses up at least one byte and none behind the end (`exists_decodeUnitAt`, `exists_decodeCharacterAt`).
So a loop over the offsets comes to the end on all bytes, and it ends there exactly
(`scans_end_exactly`).
-/

namespace ModifiedUtf8

/-! ## One step -/

section Step

variable (w : Width) (lead : UInt8) (rest : Bytes)

theorem decodeUnit_size_le_three : (decodeUnit w lead rest).size ≤ 3 := by
  rcases decodeUnit_cases w lead rest with ⟨b, more, -, -, -, e⟩ | ⟨b, c, more, -, -, -, -, e⟩ | e
  all_goals simp [e]

theorem decodeUnit_value_le_mask : (decodeUnit w lead rest).value.toNat ≤ w.mask := by
  have stored (value : Int) : (w.store value).toNat ≤ w.mask :=
    Nat.le_sub_one_of_lt (w.toNat_store_lt value)
  rcases decodeUnit_cases w lead rest with ⟨b, more, -, -, -, e⟩ | ⟨b, c, more, -, -, -, -, e⟩ | e
  · rw [e]
    apply stored
  · rw [e]
    apply stored
  · have small := lead.toNat_lt
    rw [e, UInt8.toNat_toUInt16]
    cases w with
    | narrow => exact Nat.le_of_lt_succ small
    | wide => exact Nat.le_of_lt_succ (Nat.lt_trans small (by decide))

theorem decodeCharacter_size_mem : (decodeCharacter lead rest).size ∈ [1, 2, 3, 6] := by
  rcases decodeCharacter_cases lead rest with
    ⟨b1, b2, b4, b5, more, -, -, -, -, -, -, e⟩ | ⟨-, e⟩
  · simp [e]
  · have pos := decodeUnit_size_pos .wide lead rest
    have le := decodeUnit_size_le_three .wide lead rest
    simp [e]
    omega

end Step

section Offset

variable {data : Bytes} {offset : Nat}

theorem exists_decodeUnitAt (w : Width) (inside : offset < data.length) : ∃ d,
    decodeUnitAt w data offset = .ok d ∧ 1 ≤ d.size ∧ d.size ≤ 3 ∧ offset + d.size ≤ data.length ∧
      d.value.toNat ≤ w.mask := by
  have suffix := List.drop_eq_getElem_cons inside
  have le := decodeUnit_size_le w data[offset] (data.drop (offset + 1))
  rw [List.length_drop] at le
  refine ⟨_, decodeUnitAt_of_drop suffix, decodeUnit_size_pos w _ _, decodeUnit_size_le_three w _ _, ?_,
    decodeUnit_value_le_mask w _ _⟩
  omega

theorem exists_decodeCharacterAt (inside : offset < data.length) : ∃ d,
    decodeCharacterAt data offset = .ok d ∧ d.size ∈ [1, 2, 3, 6] ∧ offset + d.size ≤ data.length ∧
      d.value.val ≤ 0x10FFFF := by
  have suffix := List.drop_eq_getElem_cons inside
  have le := decodeCharacter_size_le data[offset] (data.drop (offset + 1))
  rw [List.length_drop] at le
  refine ⟨_, decodeCharacterAt_of_drop suffix, decodeCharacter_size_mem _ _, ?_,
    Nat.le_of_lt_succ (Fin.isLt _)⟩
  omega

end Offset

/-! ## All steps -/

theorem readsFrom_decodeCharacterAt (data : Bytes) (position : Nat) :
    ReadsFrom (decodeCharacterAt data) data.length position (scanCharacters (data.drop position)) :=
  readsFrom_scan decodeCharacter_size_pos (fun _ _ _ h => decodeCharacterAt_of_drop h) position

/-- The loop makes one run, in which the sizes of the items add up to the number of bytes. -/
structure EndsExactly {α : Type} (readAt : Int → Except Fault (Decoded α)) (stop : Nat)
    (items : List (Decoded α)) : Prop where
  run : ReadsFrom readAt stop 0 items
  only : ∀ others, ReadsFrom readAt stop 0 others → others = items
  total : totalSize Decoded.size items = stop

theorem endsExactly_decodeCharacterAt (data : Bytes) :
    EndsExactly (decodeCharacterAt data) data.length (scanCharacters data) where
  run := readsFrom_decodeCharacterAt data 0
  only _ other := other.unique (readsFrom_decodeCharacterAt data 0)
  total := totalSize_scanCharacters data

theorem endsExactly_decodeUnitAt (w : Width) {data : Bytes} {n : Nat} (le : n ≤ data.length) :
    EndsExactly (decodeUnitAt w (data.take n)) n (scanUnits w (data.take n)) where
  run := readsFrom_take w le
  only _ other := other.unique (readsFrom_take w le)
  total := by rw [totalSize_scanUnits, List.length_take_of_le le]

theorem decode_cases (mode : Strictness) (data : Bytes) : decode mode data = .ok (textOf data) ∨
    mode = .strict ∧ isLegalWithin data .whole false = .ok false := by
  rw [isLegalWithin_whole]
  cases mode with
  | lenient => exact Or.inl (decode_lenient data)
  | strict =>
    cases legal : isLegal false data with
    | true => exact Or.inl (decode_of_isLegal legal .strict)
    | false => exact Or.inr ⟨rfl, rfl⟩

/-- `decodeUnitAt` and `decodeCharacterAt` find something at every offset inside, and both loops end
exactly at the end. -/
theorem scans_end_exactly (data : Bytes) :
    (∀ offset : Nat, offset < data.length →
      (∀ w, ∃ d, decodeUnitAt w data offset = .ok d ∧ 1 ≤ d.size ∧ d.size ≤ 3 ∧
        offset + d.size ≤ data.length ∧ d.value.toNat ≤ w.mask) ∧
      ∃ d, decodeCharacterAt data offset = .ok d ∧ d.size ∈ [1, 2, 3, 6] ∧
        offset + d.size ≤ data.length ∧ d.value.val ≤ 0x10FFFF) ∧
    (∃ items, EndsExactly (decodeCharacterAt data) data.length items ∧
      ∀ mode, decode mode data = .ok (items.map Decoded.value) ∨
        mode = .strict ∧ isLegalWithin data .whole false = .ok false) ∧
    ∀ n ≤ data.length, ∃ items, EndsExactly (decodeUnitAt .wide (data.take n)) n items ∧
      Quoted.bytesLength data (.int n) = .ok (Quoted.renderedLength (items.map Decoded.value)) ∧
      Quoted.ofBytes data (.int n) =
        .ok (Text.ofBytes ((items.map Decoded.value).flatMap Quoted.render)) := by
  refine ⟨fun offset inside => ?_, ?_, fun n le => ?_⟩
  · exact ⟨fun w => exists_decodeUnitAt w inside, exists_decodeCharacterAt inside⟩
  · exact ⟨_, endsExactly_decodeCharacterAt data, fun mode => decode_cases mode data⟩
  · have selected := Size.lengthOf_natCast le
    exact ⟨_, endsExactly_decodeUnitAt .wide le, Quoted.bytesLength_of_lengthOf selected,
      Quoted.ofBytes_of_lengthOf selected⟩

/-- A pair whose last byte is missing, from the middle on and in whole. -/
theorem scans_end_exactly_of_cut_pair :
    3 < ([0xED, 0xA0, 0xBD, 0xED, 0xB8] : Bytes).length ∧
    decodeUnitAt .narrow [0xED, 0xA0, 0xBD, 0xED, 0xB8] 3 = .ok ⟨0xED, 1⟩ ∧
    (0xED : CodeUnit).toNat ≤ Width.narrow.mask ∧
    (∃ items, EndsExactly (decodeCharacterAt [0xED, 0xA0, 0xBD, 0xED, 0xB8]) 5 items ∧
      items.map Decoded.value = [0xD83D, 0xED, 0xB8]) ∧
    4 ≤ ([0xED, 0xA0, 0xBD, 0xED, 0xB8] : Bytes).length ∧
    ∃ items, EndsExactly (decodeUnitAt .wide [0xED, 0xA0, 0xBD, 0xED]) 4 items ∧
      Quoted.renderedLength (items.map Decoded.value) = 12 := by
  have inside : 3 < ([0xED, 0xA0, 0xBD, 0xED, 0xB8] : Bytes).length := by decide
  have le : 4 ≤ ([0xED, 0xA0, 0xBD, 0xED, 0xB8] : Bytes).length := by decide
  have read : decodeUnitAt .narrow [0xED, 0xA0, 0xBD, 0xED, 0xB8] 3 = .ok ⟨0xED, 1⟩ := by decide
  have text : decode .lenient [0xED, 0xA0, 0xBD, 0xED, 0xB8] = .ok [0xD83D, 0xED, 0xB8] := by decide
  have size : Quoted.bytesLength [0xED, 0xA0, 0xBD, 0xED, 0xB8] (.int 4) = .ok 12 := by decide
  obtain ⟨steps, ⟨items, ends, decoded⟩, first⟩ := scans_end_exactly [0xED, 0xA0, 0xBD, 0xED, 0xB8]
  obtain ⟨d, found, -, -, -, small⟩ := (steps 3 inside).1 .narrow
  obtain rfl : d = ⟨0xED, 1⟩ := Except.ok.inj (found.symm.trans read)
  have same := (decoded .lenient).resolve_right fun h => Strictness.noConfusion h.1
  obtain ⟨units, unitsEnd, length, -⟩ := first 4 le
  exact ⟨inside, read, small, ⟨items, ends, Except.ok.inj (same.symm.trans text)⟩, le,
    units, unitsEnd, Except.ok.inj (length.symm.trans size)⟩

end ModifiedUtf8
