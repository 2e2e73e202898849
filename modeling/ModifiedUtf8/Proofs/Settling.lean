import ModifiedUtf8.Proofs.Dropping
import ModifiedUtf8.Proofs.Lenient

/-!
# What is settled

Of the beginning of legal bytes a decoder gives out as much as it can, and no more: the settled length is
the greatest position that is a character boundary whatever legal bytes come behind
(`isGreatest_settledLength`).

It is a boundary, since no pair goes through it (`settledLength_mem_boundaries`).  It is the greatest, since
what is kept back is a part of one character, in at least one continuation (`exists_longer_character`): the
lead announces more bytes than are there, or a high surrogate waits for a low one, and then what is there
of that can be completed (`exists_pair_of_awaitsLow`).
-/

namespace ModifiedUtf8

/-! ## The settled bytes end at a boundary -/

theorem length_encodeUnits_of_take {data : Bytes} {settled : List CodeUnit}
    (h : data.take (settledLength data) = encodeUnits settled) :
    (encodeUnits settled).length = settledLength data := by
  rw [← h, List.length_take_of_le (settledLength_le data)]

theorem length_encodeUnits_mem_boundaries {front back : List CodeUnit}
    (uncut : ¬ Text.CutsPair (front.map CodePoint.ofUnit) (back.map CodePoint.ofUnit)) :
    (encodeUnits front).length ∈ boundaries (encodeUnits front ++ encodeUnits back) := by
  have same : textOf (encodeUnits front) ++ textOf (encodeUnits back) =
      textOf (encodeUnits front ++ encodeUnits back) := by
    rw [← encodeUnits_append, textOf_encodeUnits, textOf_encodeUnits, textOf_encodeUnits,
      Text.ofUnits_append uncut]
  exact ((textOf_append_eq_iff (Nat.le_refl _)).1 same).1

theorem settledLength_mem_boundaries {front back : Bytes} {units : List CodeUnit}
    (h : front ++ back = encodeUnits units) : settledLength front ∈ boundaries (front ++ back) := by
  obtain ⟨settled, kept, rfl, taken, uncut⟩ := settledLength_spec h
  have size := length_encodeUnits_of_take taken
  rw [h, encodeUnits_append, ← size]
  exact length_encodeUnits_mem_boundaries uncut

/-! ## What is kept back -/

section Kept

variable {lead : UInt8} {rest back : Bytes} {units : List CodeUnit}

theorem lt_neededSize_of_settledLength (h : settledLength (lead :: rest) = 0) :
    rest.length + 1 < neededSize lead rest := by
  have pos := neededSize_pos lead rest
  by_contra fits
  rw [settledLength_of_le (Nat.le_of_not_lt fits)] at h
  omega

theorem exists_low_of_mayBeginLow {front : Bytes} (h : mayBeginLow front = true)
    (short : front.length < 3) : ∃ b c missing, front ++ missing = [0xED, b, c] ∧
      isLowSecond b = true ∧ isContinuation c = true := by
  match front with
  | [] => exact ⟨0xB0, 0x80, _, rfl, by decide, by decide⟩
  | [b0] =>
    obtain rfl : b0 = 0xED := by simpa [mayBeginLow] using h
    exact ⟨0xB0, 0x80, _, rfl, by decide, by decide⟩
  | [b0, b] =>
    obtain ⟨rfl, second⟩ : b0 = 0xED ∧ isLowSecond b = true := by simpa [mayBeginLow] using h
    exact ⟨b, 0x80, _, rfl, second, by decide⟩
  | _ :: _ :: _ :: more =>
    rw [List.length_cons, List.length_cons, List.length_cons] at short
    omega

theorem exists_pair_of_awaitsLow (waits : awaitsLow lead rest = true)
    (h : lead :: rest ++ back = encodeUnits units) (short : rest.length + 1 < 6) :
    ∃ b1 b2 b4 b5 missing, lead :: rest ++ missing = [0xED, b1, b2, 0xED, b4, b5] ∧
      isHighSecond b1 = true ∧ isContinuation b2 = true ∧ isLowSecond b4 = true ∧
      isContinuation b5 = true := by
  simp only [awaitsLow, Bool.and_eq_true, beq_iff_eq] at waits
  obtain ⟨⟨rfl, high⟩, low⟩ := waits
  rcases rest with _ | ⟨b1, _ | ⟨b2, begun⟩⟩
  · cases high
  · exact ⟨b1, 0x80, 0xB0, 0x80, _, rfl, high, by decide, by decide, by decide⟩
  · have third : isContinuation b2 = true := by
      obtain ⟨unit, others, -, bytes, -⟩ := exists_encodeUnit_of_three (by decide) h
      obtain ⟨_, _, split, -, tails⟩ := (isSequence_encodeUnit unit).exists_cons
      rw [bytes] at split
      cases split
      exact tails b2 (by simp)
    obtain ⟨b4, b5, missing, completed, fifth, last⟩ :=
      exists_low_of_mayBeginLow low (by simp at short ⊢; omega)
    refine ⟨b1, b2, b4, b5, missing, ?_, high, third, fifth, last⟩
    simp at completed
    simp [completed]

/-- What is not settled is, in some continuation, a part of one character. -/
theorem exists_longer_character (h : lead :: rest ++ back = encodeUnits units)
    (short : rest.length + 1 < neededSize lead rest) : ∃ more,
      IsConcatenation false (lead :: rest ++ more) ∧
        rest.length + 1 < (decodeCharacter lead (rest ++ more)).size := by
  cases waits : awaitsLow lead rest with
  | false =>
    -- the lead announces more than is there, and whatever completes it belongs to the character
    have needed : neededSize lead rest = announcedSize lead := by simp [neededSize, waits]
    refine ⟨back, h ▸ isConcatenation_encodeUnits false units, ?_⟩
    cases units with
    | nil => cases h
    | cons unit others =>
      obtain ⟨first, tail, bytes, announced, -⟩ := decodeUnit_encodeUnit .wide unit
      have found := isSequence_encodeUnit unit
      rw [encodeUnits_cons, bytes] at h
      rw [bytes] at announced found
      obtain ⟨rfl, behind⟩ : lead = first ∧ rest ++ back = tail ++ encodeUnits others :=
        List.cons.inj h
      have whole := found.length_le_size (encodeUnits others)
      rw [needed, announced] at short
      rw [behind]
      exact Nat.lt_of_lt_of_le short whole
  | true =>
    have needed : neededSize lead rest = 6 := by simp [neededSize, waits]
    rw [needed] at short
    obtain ⟨b1, b2, b4, b5, missing, completed, second, third, fifth, last⟩ :=
      exists_pair_of_awaitsLow waits h short
    obtain ⟨high, low⟩ := isSequence_halves false second third fifth last
    obtain ⟨rfl, behind⟩ : lead = 0xED ∧ rest ++ missing = [b1, b2, 0xED, b4, b5] :=
      List.cons.inj completed
    refine ⟨missing, ?_, ?_⟩
    · rw [completed]
      exact .append high (.append low .nil)
    · rw [behind, decodeCharacter_pair second third fifth last]
      exact short

end Kept

/-! ## The settled length -/

theorem exists_continuation {front back : Bytes} {units : List CodeUnit}
    (h : front ++ back = encodeUnits units) : ∃ more units', front ++ more = encodeUnits units' ∧
      ∀ k ∈ boundaries (front ++ more), settledLength front < k → front.length < k := by
  obtain ⟨settled, kept, rfl, taken, -⟩ := settledLength_spec h
  have size := length_encodeUnits_of_take taken
  have split := List.take_append_drop (settledLength front) front
  have idle := settledLength_drop front
  rw [taken] at split
  match left : front.drop (settledLength front) with
  | [] =>
    -- all is settled
    refine ⟨back, _, h, fun k _ lt => ?_⟩
    rw [List.drop_eq_nil_iff] at left
    exact Nat.lt_of_le_of_lt left lt
  | lead :: rest =>
    rw [left] at split idle
    rw [← split, List.append_assoc, encodeUnits_append, List.append_cancel_left_eq] at h
    obtain ⟨more, legal, longer⟩ := exists_longer_character h (lt_neededSize_of_settledLength idle)
    have whole := (isConcatenation_encodeUnits false settled).concat legal
    rw [← List.append_assoc, split] at whole
    obtain ⟨units', e⟩ := (isConcatenation_strict_iff _).1 whole
    refine ⟨more, units', e.symm, fun k mem lt => ?_⟩
    have here := settledLength_mem_boundaries e.symm
    rw [← size] at lt here
    rw [← split, List.append_assoc] at mem here
    have behind : (encodeUnits settled).length + (decodeCharacter lead (rest ++ more)).size ≤ k :=
      add_size_le_of_mem_boundaries here mem lt
    rw [← split, List.length_append, List.length_cons]
    omega

/-- `settledLength` is the greatest boundary that every legal continuation has. -/
theorem isGreatest_settledLength {front : Bytes}
    (h : ∃ back, isLegalWithin (front ++ back) .whole false = .ok true) :
    IsGreatest {k | k ≤ front.length ∧ ∀ back,
      isLegalWithin (front ++ back) .whole false = .ok true → k ∈ boundaries (front ++ back)}
      (settledLength front) := by
  simp only [isLegalWithin_whole, Except.ok.injEq, isLegal_strict_iff] at h ⊢
  constructor
  · refine ⟨settledLength_le front, fun back => ?_⟩
    rintro ⟨units, e⟩
    exact settledLength_mem_boundaries e.symm
  · rintro k ⟨le, always⟩
    obtain ⟨back, units, e⟩ := h
    obtain ⟨more, units', e', apart⟩ := exists_continuation e.symm
    by_contra later
    have beyond := apart k (always more ⟨units', e'.symm⟩) (Nat.lt_of_not_le later)
    omega

/-- A letter and a high surrogate that a low one may still follow. -/
theorem isGreatest_settledLength_of_waiting :
    isLegalWithin ([0x61, 0xED, 0xA0, 0xBD, 0xED] ++ [0x9F, 0xBF]) .whole false = .ok true ∧
    settledLength [0x61, 0xED, 0xA0, 0xBD, 0xED] = 1 ∧
    IsGreatest {k | k ≤ 5 ∧ ∀ back,
      isLegalWithin ([0x61, 0xED, 0xA0, 0xBD, 0xED] ++ back) .whole false = .ok true →
        k ∈ boundaries ([0x61, 0xED, 0xA0, 0xBD, 0xED] ++ back)} 1 := by
  have legal : isLegalWithin ([0x61, 0xED, 0xA0, 0xBD, 0xED] ++ [0x9F, 0xBF]) .whole false =
      .ok true := by decide
  exact ⟨legal, rfl, isGreatest_settledLength ⟨[0x9F, 0xBF], legal⟩⟩

end ModifiedUtf8
