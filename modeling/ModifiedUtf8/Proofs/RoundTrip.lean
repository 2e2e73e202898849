import ModifiedUtf8.Codec
import ModifiedUtf8.Proofs.Legality
import ModifiedUtf8.Proofs.Scan
import ModifiedUtf8.Proofs.Writing

/-!
# Round trips

Writing, validating and reading fit together.

* The validator accepts what lists of 16-bit units are written as and nothing else, and each of its
  byte strings comes from one list (`isLegal_iff_encodeMeasured`).
* A text that is written and read comes back joined, hence unchanged exactly if no high surrogate
  is followed by a low one in it (`decode_strict_encode`).
* Bytes that are read and written come back unchanged, and strict reading refuses exactly the bytes
  that are not legal (`encode_decode_strict`).
-/

namespace ModifiedUtf8

/-! ## The validator and the writer -/

/-- Every integer is a 16-bit unit. -/
def AllUnits (units : List Int) : Prop := ∀ unit ∈ units, 0 ≤ unit ∧ unit ≤ 0xFFFF

theorem allUnits_map_toNat (units : List CodeUnit) :
    AllUnits (units.map fun unit => (unit.toNat : Int)) := by
  intro unit mem
  obtain ⟨u, -, rfl⟩ := List.mem_map.1 mem
  have bound := u.toNat_lt
  omega

theorem map_toNat_store {w : Width} {units : List Int}
    (h : ∀ unit ∈ units, 0 ≤ unit ∧ unit ≤ w.mask) :
    (units.map w.store).map (fun unit => (unit.toNat : Int)) = units := by
  rw [List.map_map]
  refine (List.map_congr_left fun unit mem => ?_).trans (List.map_id units)
  exact Width.natCast_toNat_store_of_le (h unit mem).1 (h unit mem).2

theorem encodeStored_wide_inj {units units' : List Int} (h : AllUnits units) (h' : AllUnits units')
    (e : encodeStored .wide units = encodeStored .wide units') : units = units' := by
  have same : units.map Width.wide.store = units'.map Width.wide.store := encodeUnits_injective e
  rw [← map_toNat_store (w := .wide) h, same, map_toNat_store (w := .wide) h']

theorem isLegalWithin_whole (data : Bytes) (legacy : Bool) :
    isLegalWithin data .whole legacy = .ok (isLegal legacy data) := by
  rw [isLegalWithin, Size.lengthOf, Except.map, List.take_length]

theorem isLegalWithin_natCast {data : Bytes} {n : Nat} (le : n ≤ data.length) (legacy : Bool) :
    isLegalWithin data (.int n) legacy = .ok (isLegal legacy (data.take n)) := by
  rw [isLegalWithin, Size.lengthOf_natCast le]
  rfl

/-- `isLegalWithin` accepts exactly what `encodeMeasured` writes, each from one list. -/
theorem isLegal_iff_encodeMeasured (data : Bytes) :
    (isLegalWithin data .whole false = .ok true ↔
      ∃ units, AllUnits units ∧ encodeMeasured .wide units = .ok data) ∧
    ∀ units units', AllUnits units → AllUnits units' → encodeMeasured .wide units = .ok data →
      encodeMeasured .wide units' = .ok data → units = units' := by
  simp only [encodeMeasured_eq, isLegalWithin_whole, Except.ok.injEq]
  refine ⟨?_, fun units units' h h' e e' => encodeStored_wide_inj h h' (e.trans e'.symm)⟩
  rw [isLegal_strict_iff]
  constructor
  · rintro ⟨units, rfl⟩
    exact ⟨_, allUnits_map_toNat units, encodeStored_wide_toNat units⟩
  · rintro ⟨units, -, e⟩
    exact ⟨units.map Width.wide.store, e⟩

/-! ## The codec -/

theorem encode_eq (text : Text) : encode text = .ok (encodeUnits text.toUnits) := by
  rw [encode, encodeMeasured_eq, encodeStored_wide_toNat]

theorem decode_of_isLegal {data : Bytes} (h : isLegal false data = true) (mode : Strictness) :
    decode mode data = .ok (textOf data) := by
  rw [decode, if_neg]
  rintro ⟨-, illegal⟩
  rw [h] at illegal
  cases illegal

theorem decode_strict_of_not_isLegal {data : Bytes} (h : isLegal false data = false) :
    decode .strict data = .error (.illegal data) := by
  rw [decode, if_pos ⟨rfl, h⟩]

theorem decode_encodeUnits (mode : Strictness) (units : List CodeUnit) :
    decode mode (encodeUnits units) = .ok (Text.ofUnits units) := by
  rw [decode_of_isLegal (isLegal_encodeUnits false units), textOf_encodeUnits]

/-- `decode` takes back what `encode` writes, joined, so it is the same text unless a pair is in it. -/
theorem decode_strict_encode (text : Text) :
    ∃ data, encode text = .ok data ∧
      decode .strict data = .ok (Text.ofUnits text.toUnits) ∧
      (Text.ofUnits text.toUnits = text ↔ text.NoPair) := by
  refine ⟨_, encode_eq text, decode_encodeUnits .strict _, ?_⟩
  rw [Text.ofUnits_toUnits]
  exact Text.joinSurrogates_eq_self_iff text

theorem Bytes.equal_iff {data other : Bytes} : Bytes.equal data other = true ↔ data = other :=
  beq_iff_eq

/-- `decode` refuses illegal bytes, and `encode` inverts it on all others. -/
theorem encode_decode_strict :
    (∀ data, decode .strict data = .error (.illegal data) ↔
      isLegalWithin data .whole false = .ok false) ∧
    (∀ data, isLegalWithin data .whole false ≠ .ok false →
      ∃ text, decode .strict data = .ok text ∧ encode text = .ok data) ∧
    ∀ data other, isLegalWithin data .whole false = .ok true →
      isLegalWithin other .whole false = .ok true →
      (decode .strict data = decode .strict other ↔ Bytes.equal data other = true) := by
  simp only [isLegalWithin_whole, Except.ok.injEq, ne_eq, Bool.not_eq_false]
  refine ⟨fun data => ⟨fun refused => ?_, decode_strict_of_not_isLegal⟩, fun data legal => ?_,
    fun data other legal legal' => ?_⟩
  · rw [Bool.eq_false_iff]
    intro legal
    rw [decode_of_isLegal legal] at refused
    cases refused
  · obtain ⟨units, rfl⟩ := (isLegal_strict_iff data).1 legal
    refine ⟨_, decode_encodeUnits .strict units, ?_⟩
    rw [encode_eq, Text.toUnits_ofUnits]
  · rw [Bytes.equal_iff]
    refine ⟨fun same => ?_, congrArg (decode .strict)⟩
    obtain ⟨units, rfl⟩ := (isLegal_strict_iff data).1 legal
    obtain ⟨units', rfl⟩ := (isLegal_strict_iff other).1 legal'
    rw [decode_encodeUnits, decode_encodeUnits, Except.ok.injEq] at same
    rw [← Text.toUnits_ofUnits units, same, Text.toUnits_ofUnits]

end ModifiedUtf8
