import ModifiedUtf8.Proofs.Storing

/-!
# Legacy bytes in shortest form

The legacy grammar has several sequences for one value.  Reading legacy bytes and writing their units
gives strict bytes with the same units: each sequence is replaced by the one that is written for its
value, and is that one already or gets shorter (`IsSequence.exists_encodeUnit_or_shorter`).  Only
strict bytes stay as they are (`encodeUnits_unitsOf_eq_iff`).
-/

namespace ModifiedUtf8

variable {legacy : Bool}

/-! ## One sequence -/

theorem length_encodeUnit_lt_three {unit : CodeUnit} (h : unit.toNat < 0x800) :
    (encodeUnit unit).length < 3 := by
  rcases encodeUnit_cases unit with ⟨b, e, -⟩ | ⟨lead, b, e, -⟩ | ⟨lead, b, c, e, -, -, -, -, ge⟩
  · simp [e]
  · simp [e]
  · exact absurd h (Nat.not_lt.2 ge)

/-- The unit of a sequence is written as the same sequence or as a shorter one. -/
theorem IsSequence.exists_encodeUnit_or_shorter {s : Bytes} (h : IsSequence legacy s) :
    ∃ unit, (∀ rest, unitsOf .wide (s ++ rest) = unit :: unitsOf .wide rest) ∧
      (encodeUnit unit = s ∨ (encodeUnit unit).length < s.length) := by
  by_cases strict : IsSequence false s
  · obtain ⟨unit, rfl⟩ := strict.exists_encodeUnit
    refine ⟨unit, fun rest => ?_, Or.inl rfl⟩
    have read := unitsOf_encodeUnits_append .wide [unit] rest
    rwa [encodeUnits_singleton, List.map_singleton, Width.wide_store_toNat] at read
  -- A sequence that only the legacy grammar has is longer than its value needs.
  cases h with
  | one pos ascii => exact absurd (.one pos ascii) strict
  | @two lead b kind tail =>
    have value := toNat_store_twoValue lead b
    have overlong : 0 < twoValue lead b ∧ twoValue lead b < 0x80 := by
      by_contra shortest
      exact strict (.two kind tail (Or.inr (by omega)))
    refine ⟨Width.wide.store (twoValue lead b), fun rest => ?_, Or.inr ?_⟩
    · rw [List.cons_append, unitsOf_cons, List.singleton_append, decodeUnit_two kind tail]
      rfl
    · rw [encodeUnit_one (by omega) (by omega)]
      exact Nat.lt_succ_self 1
  | @three lead b c kind tail last =>
    have value := toNat_store_threeValue lead b c
    have overlong : threeValue lead b c < 0x800 := by
      by_contra shortest
      exact strict (.three kind tail last (Or.inr (Nat.not_lt.1 shortest)))
    refine ⟨Width.wide.store (threeValue lead b c), fun rest => ?_, Or.inr ?_⟩
    · rw [List.cons_append, unitsOf_cons, List.cons_append, List.singleton_append,
        decodeUnit_three kind tail last]
      rfl
    · exact length_encodeUnit_lt_three (by omega)

/-! ## All sequences -/

theorem length_le_of_eq_or_shorter {s t : Bytes} (h : s = t ∨ s.length < t.length) :
    s.length ≤ t.length := by
  rcases h with rfl | shorter
  · exact Nat.le_refl _
  · exact Nat.le_of_lt shorter

theorem IsConcatenation.encodeUnits_unitsOf {data : Bytes} (h : IsConcatenation legacy data) :
    encodeUnits (unitsOf .wide data) = data ∨
      (encodeUnits (unitsOf .wide data)).length < data.length := by
  induction h with
  | nil => exact Or.inl rfl
  | append front _ ih =>
    obtain ⟨unit, read, first⟩ := front.exists_encodeUnit_or_shorter
    rw [read, encodeUnits_cons]
    rcases first with same | shorter
    · rw [same, List.append_right_inj, List.length_append, List.length_append, Nat.add_lt_add_iff_left]
      exact ih
    · right
      rw [List.length_append, List.length_append]
      exact Nat.add_lt_add_of_lt_of_le shorter (length_le_of_eq_or_shorter ih)

theorem encodeUnits_unitsOf_eq_iff (data : Bytes) :
    encodeUnits (unitsOf .wide data) = data ↔ isLegal false data = true := by
  rw [isLegal_strict_iff]
  constructor
  · exact fun same => ⟨_, same⟩
  · rintro ⟨units, rfl⟩
    rw [unitsOf_wide_encodeUnits]

/-- `encodeMeasured` of the units of legacy bytes gives strict bytes with these units, no longer
than before. -/
theorem encodeMeasured_unitsOf {data : Bytes} (legal : isLegalWithin data .whole true = .ok true) :
    ∃ shortest m,
      encodeMeasured .wide ((unitsOf .wide data).map fun unit => (unit.toNat : Int)) =
        .ok shortest ∧
      isLegalWithin shortest .whole false = .ok true ∧
      unitsOf .wide shortest = unitsOf .wide data ∧
      shortest.length ≤ data.length ∧
      (shortest = data ↔ isLegalWithin data .whole false = .ok true) ∧
      measure data (.int data.length) = .ok m ∧ m.length = (unitsOf .wide data).length := by
  rw [isLegalWithin_whole, Except.ok.injEq] at legal
  have grammar := (isLegal_iff data).1 legal
  refine ⟨encodeUnits (unitsOf .wide data), measureCounted data, ?_, ?_, ?_, ?_, ?_, ?_, ?_⟩
  · rw [encodeMeasured_eq, encodeStored_wide_toNat]
  · rw [isLegalWithin_whole, isLegal_encodeUnits]
  · exact unitsOf_wide_encodeUnits _
  · exact length_le_of_eq_or_shorter grammar.encodeUnits_unitsOf
  · rw [isLegalWithin_whole, Except.ok.injEq]
    exact encodeUnits_unitsOf_eq_iff data
  · exact measure_all data
  · rw [length_measureCounted, grammar.startCount_eq .wide, unitsOf, List.length_map]

/-- Zero in three bytes, a letter in two and half a pair. -/
theorem encodeMeasured_unitsOf_of_overlong :
    isLegalWithin [0xE0, 0x80, 0x80, 0xC1, 0x81, 0xED, 0xA0, 0xBD] .whole true = .ok true ∧
    isLegalWithin [0xE0, 0x80, 0x80, 0xC1, 0x81, 0xED, 0xA0, 0xBD] .whole false = .ok false ∧
    isLegalWithin [0xC0, 0x80, 0x41, 0xED, 0xA0, 0xBD] .whole false = .ok true ∧
    unitsOf .wide [0xC0, 0x80, 0x41, 0xED, 0xA0, 0xBD] = [0, 0x41, 0xD83D] ∧
    ∃ m, measure [0xE0, 0x80, 0x80, 0xC1, 0x81, 0xED, 0xA0, 0xBD] (.int 8) = .ok m ∧
      m.length = 3 := by
  have legal : isLegalWithin [0xE0, 0x80, 0x80, 0xC1, 0x81, 0xED, 0xA0, 0xBD] .whole true =
      .ok true := by decide
  have units : unitsOf .wide [0xE0, 0x80, 0x80, 0xC1, 0x81, 0xED, 0xA0, 0xBD] =
      [0, 0x41, 0xD83D] := by decide
  obtain ⟨shortest, m, written, strict, same, -, -, counted, length⟩ := encodeMeasured_unitsOf legal
  have expected : encodeMeasured .wide [0, 0x41, 0xD83D] =
      .ok [0xC0, 0x80, 0x41, 0xED, 0xA0, 0xBD] := by decide
  rw [units] at written same length
  obtain rfl := Except.ok.inj (expected.symm.trans written)
  exact ⟨legal, by decide, strict, same, m, counted, length⟩

end ModifiedUtf8
