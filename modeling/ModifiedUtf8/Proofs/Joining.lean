import ModifiedUtf8.Proofs.Offsets
import ModifiedUtf8.Proofs.Storing

/-!
# Joined surrogates

A high surrogate is joined with a low one that directly follows it, in a list of units as in bytes, and
nothing else is joined.

Joining units loses nothing: splitting gives the same units again, and the texts of units are those in
which no pair is left (`noPair_iff_exists_units`).

A character is read as it was written wherever it stands in a byte string, unless it is a high surrogate
and the bytes behind it begin with a low one (`decodeCharacterAt_encodeCharacter`).  The reader of pairs
looks beyond the sequence of one unit, but it finds a pair just where two surrogates were written
(`startsWithPair_encodeUnit_append_iff`).
-/

namespace ModifiedUtf8

/-! ## Units -/

namespace Text

theorem joinSurrogates_joinSurrogates (text : Text) :
    joinSurrogates (joinSurrogates text) = joinSurrogates text := by
  rw [← ofUnits_toUnits, toUnits_joinSurrogates, ofUnits_toUnits]

theorem noPair_joinSurrogates (text : Text) : (joinSurrogates text).NoPair := by
  rw [← joinSurrogates_eq_self_iff]
  exact joinSurrogates_joinSurrogates text

end Text

theorem ofIntegers?_of_allUnits {units : List Int} (h : AllUnits units) :
    Text.ofIntegers? units = .ok (Text.ofUnits (units.map Width.wide.store)) := by
  have joined := ofIntegers?_map_toNat (units.map Width.wide.store)
  rwa [map_toNat_store (w := .wide) h] at joined

/-- `Text.toUnits` inverts `Text.ofIntegers?` on 16-bit units, whose texts are those without a pair. -/
theorem noPair_iff_exists_units :
    (∀ units, AllUnits units → ∃ text, Text.ofIntegers? units = .ok text ∧ text.NoPair ∧
      text.toUnits.map (fun unit => (unit.toNat : Int)) = units) ∧
    ∀ text : Text, text.NoPair ↔ ∃ units, AllUnits units ∧ Text.ofIntegers? units = .ok text := by
  constructor
  · intro units h
    refine ⟨_, ofIntegers?_of_allUnits h, Text.noPair_joinSurrogates _, ?_⟩
    rw [Text.toUnits_ofUnits]
    exact map_toNat_store (w := .wide) h
  · intro text
    constructor
    · intro apart
      refine ⟨_, allUnits_map_toNat text.toUnits, ?_⟩
      rw [ofIntegers?_map_toNat, Text.ofUnits_toUnits,
        (Text.joinSurrogates_eq_self_iff text).2 apart]
    · rintro ⟨units, h, joined⟩
      rw [ofIntegers?_of_allUnits h, Except.ok.injEq] at joined
      rw [← joined]
      exact Text.noPair_joinSurrogates _

/-- Two high surrogates before two low ones, of which the middle two are joined. -/
theorem noPair_iff_exists_units_of_run :
    AllUnits [0xD800, 0xD83D, 0xDE00, 0xDC00] ∧
    Text.ofIntegers? [0xD800, 0xD83D, 0xDE00, 0xDC00] = .ok [0xD800, 0x1F600, 0xDC00] ∧
    Text.NoPair [0xD800, 0x1F600, 0xDC00] ∧
    (Text.toUnits [0xD800, 0x1F600, 0xDC00]).map (fun unit => (unit.toNat : Int)) =
      [0xD800, 0xD83D, 0xDE00, 0xDC00] := by
  have units : AllUnits [0xD800, 0xD83D, 0xDE00, 0xDC00] := by
    unfold AllUnits
    decide
  have run : Text.ofIntegers? [0xD800, 0xD83D, 0xDE00, 0xDC00] = .ok [0xD800, 0x1F600, 0xDC00] := by
    decide
  obtain ⟨text, joined, apart, split⟩ := noPair_iff_exists_units.1 _ units
  obtain rfl := Except.ok.inj (run.symm.trans joined)
  exact ⟨units, run, apart, split⟩

/-! ## Pairs in bytes -/

section Bytes

variable {high low unit : CodeUnit}

theorem eq_store_threeValue {lead b c : UInt8} (h : encodeUnit unit = [lead, b, c]) :
    unit = Width.wide.store (threeValue lead b c) := by
  rcases encodeUnit_cases unit with ⟨_, e, -⟩ | ⟨_, _, e, -⟩ | ⟨_, _, _, e, -, -, -, value, -⟩
  · rw [e] at h
    cases h
  · rw [e] at h
    cases h
  · rw [e] at h
    cases h
    rw [← value, Width.wide_store_toNat]

theorem isLow_of_encodeUnit {b c : UInt8} (h : encodeUnit unit = [0xED, b, c])
    (second : isLowSecond b = true) (last : isContinuation c = true) :
    (CodePoint.ofUnit unit).isLow = true := by
  have read := (isLow_decodeUnit_iff 0xED [b, c]).2 ⟨b, c, [], rfl, rfl, second, last⟩
  rwa [decodeUnit_three (by decide) (isContinuation_of_isLowSecond second) last,
    ← eq_store_threeValue h] at read

theorem decodeCharacterAt_halves (isHigh : (CodePoint.ofUnit high).isHigh = true)
    (isLow : (CodePoint.ofUnit low).isLow = true) (before behind : Bytes) :
    decodeCharacterAt (before ++ (encodeUnit high ++ (encodeUnit low ++ behind))) before.length =
      .ok ⟨CodePoint.ofPair (CodePoint.ofUnit high) (CodePoint.ofUnit low), 6⟩ := by
  obtain ⟨b1, b2, bytes, second, third⟩ := encodeUnit_of_isHigh isHigh
  obtain ⟨b4, b5, bytes', fifth, last⟩ := encodeUnit_of_isLow isLow
  have read := decodeCharacter_pair second third fifth last behind
  rw [pairValue_eq_ofPair second fifth, ← eq_store_threeValue bytes,
    ← eq_store_threeValue bytes'] at read
  rw [bytes, bytes', ← read]
  apply decodeCharacterAt_of_drop
  exact List.drop_left

/-- `startsWithPair` finds a pair just where two surrogates were written. -/
theorem startsWithPair_encodeUnit_append_iff (behind : Bytes) :
    startsWithPair (encodeUnit unit ++ behind) = true ↔ (CodePoint.ofUnit unit).isHigh = true ∧
      ∃ low, (CodePoint.ofUnit low).isLow = true ∧ encodeUnit low <+: behind := by
  constructor
  · intro pair
    obtain ⟨b1, b2, b4, b5, rest, e, second, third, fifth, last⟩ := (startsWithPair_iff _).1 pair
    obtain ⟨lead, tail, bytes, -, read⟩ := decodeUnit_encodeUnit .wide unit
    rw [bytes, List.cons_append] at e
    obtain ⟨rfl, behindLead⟩ := List.cons.inj e
    -- a reader of units finds the first half in the same bytes, so it is the unit
    have isHigh := (isHigh_decodeUnit_iff 0xED (tail ++ behind)).2
      ⟨b1, b2, _, behindLead, rfl, second, third⟩
    rw [read, Width.wide_store_toNat] at isHigh
    -- then the sequence of the unit has three bytes, and the second half is all behind it
    obtain ⟨c1, c2, high, -, -⟩ := encodeUnit_of_isHigh isHigh
    obtain rfl : [c1, c2] = tail := (List.cons.inj (high.symm.trans bytes)).2
    obtain ⟨-, half⟩ := isSequence_halves false second third fifth last
    obtain ⟨low, written⟩ := half.exists_encodeUnit
    cases behindLead
    refine ⟨isHigh, low, isLow_of_encodeUnit written fifth last, rest, ?_⟩
    rw [written]
    rfl
  · rintro ⟨isHigh, low, isLow, rest, rfl⟩
    obtain ⟨b1, b2, bytes, second, third⟩ := encodeUnit_of_isHigh isHigh
    obtain ⟨b4, b5, bytes', fifth, last⟩ := encodeUnit_of_isLow isLow
    rw [bytes, bytes', startsWithPair_iff]
    exact ⟨b1, b2, b4, b5, rest, rfl, second, third, fifth, last⟩

theorem decodeCharacterAt_encodeUnit (before : Bytes) {behind : Bytes}
    (apart : startsWithPair (encodeUnit unit ++ behind) = false) :
    decodeCharacterAt (before ++ (encodeUnit unit ++ behind)) before.length =
      .ok ⟨CodePoint.ofUnit unit, (encodeUnit unit).length⟩ := by
  obtain ⟨lead, tail, bytes, -, read⟩ := decodeUnit_encodeUnit .wide unit
  rw [bytes, List.cons_append] at apart
  have single := decodeCharacter_of_not_pair apart
  rw [read, Width.wide_store_toNat] at single
  rw [← single, bytes]
  apply decodeCharacterAt_of_drop
  exact List.drop_left

end Bytes

/-! ## Characters in bytes -/

/-- A high surrogate is followed by bytes that begin with those of a low one. -/
def MeetsLow (c low : CodePoint) (behind : Bytes) : Prop :=
  c.isHigh = true ∧ low.isLow = true ∧ encodeCharacter low <+: behind

theorem encodeCharacter?_val (c : CodePoint) :
    encodeCharacter? (c.val : Int) = .ok (encodeCharacter c) := by
  have bound := c.isLt
  rw [encodeCharacter?, dif_pos (by omega)]
  rfl

theorem encodeCharacter_ofUnit (unit : CodeUnit) :
    encodeCharacter (CodePoint.ofUnit unit) = encodeUnit unit := by
  simp [encodeCharacter]

theorem MeetsLow.exists_units {c low : CodePoint} {behind : Bytes} (h : MeetsLow c low behind) :
    ∃ high low', CodePoint.ofUnit high = c ∧ CodePoint.ofUnit low' = low ∧
      ∃ rest, encodeUnit low' ++ rest = behind := by
  obtain ⟨isHigh, isLow, rest, split⟩ := h
  rw [CodePoint.isHigh_iff] at isHigh
  rw [CodePoint.isLow_iff] at isLow
  have unit := CodePoint.ofUnit_store (c := c) (by omega)
  have unit' := CodePoint.ofUnit_store (c := low) (by omega)
  refine ⟨_, _, unit, unit', rest, ?_⟩
  rw [← split, ← encodeCharacter_ofUnit, unit']

theorem exists_meetsLow_iff (unit : CodeUnit) (behind : Bytes) :
    (∃ low, MeetsLow (CodePoint.ofUnit unit) low behind) ↔
      startsWithPair (encodeUnit unit ++ behind) = true := by
  rw [startsWithPair_encodeUnit_append_iff]
  constructor
  · rintro ⟨low, meets⟩
    obtain ⟨_, low', -, rfl, rest, split⟩ := meets.exists_units
    exact ⟨meets.1, low', meets.2.1, rest, split⟩
  · rintro ⟨isHigh, low, isLow, within⟩
    refine ⟨CodePoint.ofUnit low, isHigh, isLow, ?_⟩
    rwa [encodeCharacter_ofUnit]

theorem val_ofPair {c low : CodePoint} (isHigh : c.isHigh = true) (isLow : low.isLow = true) :
    (CodePoint.ofPair c low).val = 0x10000 + (c.val - 0xD800) * 1024 + (low.val - 0xDC00) := by
  rw [CodePoint.isHigh_iff] at isHigh
  rw [CodePoint.isLow_iff] at isLow
  simp only [CodePoint.ofPair]
  omega

theorem MeetsLow.decodeCharacterAt_eq {c low : CodePoint} {behind : Bytes}
    (h : MeetsLow c low behind) (before : Bytes) :
    decodeCharacterAt (before ++ encodeCharacter c ++ behind) before.length =
      .ok ⟨CodePoint.ofPair c low, 6⟩ := by
  obtain ⟨high, low', rfl, rfl, rest, rfl⟩ := h.exists_units
  rw [encodeCharacter_ofUnit, List.append_assoc]
  exact decodeCharacterAt_halves h.1 h.2.1 before rest

theorem decodeCharacterAt_of_not_meetsLow {c : CodePoint} {behind : Bytes}
    (h : ∀ low, ¬ MeetsLow c low behind) (before : Bytes) :
    decodeCharacterAt (before ++ encodeCharacter c ++ behind) before.length =
      .ok ⟨c, (encodeCharacter c).length⟩ := by
  by_cases le : c.val ≤ 0xFFFF
  · obtain ⟨unit, rfl⟩ : ∃ unit, CodePoint.ofUnit unit = c := ⟨_, CodePoint.ofUnit_store le⟩
    have apart : startsWithPair (encodeUnit unit ++ behind) = false := by
      rw [Bool.eq_false_iff, ne_eq, ← exists_meetsLow_iff]
      rintro ⟨low, meets⟩
      exact h low meets
    rw [encodeCharacter_ofUnit, List.append_assoc]
    exact decodeCharacterAt_encodeUnit before apart
  · obtain ⟨high, low, halves, isHigh, isLow, joined⟩ :=
      CodePoint.exists_toUnits_of_lt (Nat.lt_of_not_le le)
    have bytes : encodeCharacter c = encodeUnit high ++ encodeUnit low := by
      rw [encodeCharacter, halves, encodeUnits_cons, encodeUnits_singleton]
    obtain ⟨_, _, three, -⟩ := encodeUnit_of_isHigh isHigh
    obtain ⟨_, _, three', -⟩ := encodeUnit_of_isLow isLow
    have size : (encodeCharacter c).length = 6 := by
      rw [bytes, three, three']
      rfl
    rw [size, bytes, List.append_assoc, List.append_assoc,
      decodeCharacterAt_halves isHigh isLow before behind, joined]

/-- Between any bytes `decodeCharacterAt` reads a character back, unless it is a high surrogate that
meets a low one. -/
theorem decodeCharacterAt_encodeCharacter (c : CodePoint) (before behind : Bytes) :
    let read := decodeCharacterAt (before ++ encodeCharacter c ++ behind) before.length
    encodeCharacter? c.val = .ok (encodeCharacter c) ∧
    (read = .ok ⟨c, (encodeCharacter c).length⟩ ↔ ∀ low, ¬ MeetsLow c low behind) ∧
    ∀ low, MeetsLow c low behind → ∃ joined, read = .ok ⟨joined, 6⟩ ∧
      joined.val = 0x10000 + (c.val - 0xD800) * 1024 + (low.val - 0xDC00) := by
  intro read
  refine ⟨encodeCharacter?_val c, ⟨fun same low meets => ?_, fun apart => ?_⟩, fun low meets => ?_⟩
  · -- a joined character is none of the surrogates
    have pair := (meets.decodeCharacterAt_eq before).symm.trans same
    have value := congrArg Fin.val (Decoded.mk.inj (Except.ok.inj pair)).1
    rw [val_ofPair meets.1 meets.2.1] at value
    have surrogate := (CodePoint.isHigh_iff c).1 meets.1
    omega
  · exact decodeCharacterAt_of_not_meetsLow apart before
  · exact ⟨_, meets.decodeCharacterAt_eq before, val_ofPair meets.1 meets.2.1⟩

/-- A high surrogate behind a stray lead, with a low one behind it. -/
theorem decodeCharacterAt_encodeCharacter_of_halves :
    MeetsLow 0xD83D 0xDE00 [0xED, 0xB8, 0x80, 0x61] ∧
    encodeCharacter? 0xD83D = .ok [0xED, 0xA0, 0xBD] ∧
    decodeCharacterAt [0xE2, 0xED, 0xA0, 0xBD, 0xED, 0xB8, 0x80, 0x61] 1 = .ok ⟨0x1F600, 6⟩ := by
  have meets : MeetsLow 0xD83D 0xDE00 [0xED, 0xB8, 0x80, 0x61] := ⟨rfl, rfl, by decide⟩
  obtain ⟨written, -, of_meets⟩ :=
    decodeCharacterAt_encodeCharacter 0xD83D [0xE2] [0xED, 0xB8, 0x80, 0x61]
  obtain ⟨joined, read, value⟩ := of_meets 0xDE00 meets
  obtain rfl : joined = 0x1F600 := Fin.ext value
  exact ⟨meets, written, read⟩

end ModifiedUtf8
