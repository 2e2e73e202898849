import Mathlib.Logic.Function.Basic
import ModifiedUtf8.Sequence
import ModifiedUtf8.Proofs.Sequence

/-!
# Scans

A scan over what was written finds the units in order, whatever follows them
(`scanUnits_encodeUnits_append`), so lists of units have different bytes (`encodeUnits_injective`).

The character scan takes six bytes at once where a pair stands.  It gives nonetheless, for all
bytes, the text of the unit scan (`textOf_eq_ofUnits`): a high surrogate and a low one are next to
each other in the unit scan exactly where the character scan finds their six bytes.
-/

namespace ModifiedUtf8

/-- Induction along a scan: from what is left behind the first item to the whole. -/
@[elab_as_elim]
theorem scan_induction {α : Type} (read : UInt8 → Bytes → Decoded α) {motive : Bytes → Prop}
    (nil : motive [])
    (cons : ∀ lead rest, motive (rest.drop ((read lead rest).size - 1)) → motive (lead :: rest))
    (data : Bytes) : motive data := by
  induction h : data.length using Nat.strongRecOn generalizing data with
  | _ n ih =>
    cases data with
    | nil => exact nil
    | cons lead rest =>
      refine cons lead rest (ih _ ?_ _ rfl)
      rw [List.length_drop, ← h, List.length_cons]
      omega

/-! ## Scanning what was written -/

theorem scanUnits_encodeUnit_append (w : Width) (unit : CodeUnit) (rest : Bytes) :
    scanUnits w (encodeUnit unit ++ rest) =
      ⟨w.store unit.toNat, (encodeUnit unit).length⟩ :: scanUnits w rest := by
  obtain ⟨lead, tail, e, -, read⟩ := decodeUnit_encodeUnit w unit
  unfold scanUnits
  rw [e, List.cons_append, scan_cons, read, e]
  simp

theorem scanUnits_encodeUnits_append (w : Width) (units : List CodeUnit) (rest : Bytes) :
    scanUnits w (encodeUnits units ++ rest) =
      units.map (fun unit => ⟨w.store unit.toNat, (encodeUnit unit).length⟩) ++
        scanUnits w rest := by
  induction units with
  | nil => rfl
  | cons unit units ih =>
    rw [encodeUnits_cons, List.append_assoc, scanUnits_encodeUnit_append, ih, List.map_cons,
      List.cons_append]

theorem unitsOf_encodeUnits_append (w : Width) (units : List CodeUnit) (rest : Bytes) :
    unitsOf w (encodeUnits units ++ rest) =
      units.map (fun unit => w.store unit.toNat) ++ unitsOf w rest := by
  rw [unitsOf, scanUnits_encodeUnits_append, List.map_append, List.map_map]
  rfl

theorem unitsOf_encodeUnits (w : Width) (units : List CodeUnit) :
    unitsOf w (encodeUnits units) = units.map fun unit => w.store unit.toNat := by
  have h := unitsOf_encodeUnits_append w units []
  rwa [List.append_nil, show unitsOf w [] = [] from rfl, List.append_nil] at h

theorem unitsOf_wide_encodeUnits (units : List CodeUnit) :
    unitsOf .wide (encodeUnits units) = units := by
  rw [unitsOf_encodeUnits]
  simp

theorem encodeUnits_injective : Function.Injective encodeUnits :=
  Function.LeftInverse.injective unitsOf_wide_encodeUnits

/-! ## Characters and units -/

theorem scanUnits_cons (w : Width) (lead : UInt8) (rest : Bytes) :
    scanUnits w (lead :: rest) = decodeUnit w lead rest ::
      scanUnits w (rest.drop ((decodeUnit w lead rest).size - 1)) := scan_cons _ _ _

theorem unitsOf_cons (w : Width) (lead : UInt8) (rest : Bytes) :
    unitsOf w (lead :: rest) = (decodeUnit w lead rest).value ::
      unitsOf w (rest.drop ((decodeUnit w lead rest).size - 1)) := by
  rw [unitsOf, scanUnits, scan_cons]
  rfl

theorem textOf_cons (lead : UInt8) (rest : Bytes) :
    textOf (lead :: rest) = (decodeCharacter lead rest).value ::
      textOf (rest.drop ((decodeCharacter lead rest).size - 1)) := by
  rw [textOf, scanCharacters, scan_cons]
  rfl

/-- Where `decodeUnit` reads a high surrogate and a low one next, a pair stands. -/
theorem startsWithPair_of_cutsPair {lead : UInt8} {rest : Bytes}
    (h : Text.CutsPair [CodePoint.ofUnit (decodeUnit .wide lead rest).value]
      ((unitsOf .wide (rest.drop ((decodeUnit .wide lead rest).size - 1))).map CodePoint.ofUnit)) :
    startsWithPair (lead :: rest) = true := by
  obtain ⟨high, low, last, isHigh, first, isLow⟩ := h
  cases last
  obtain ⟨b1, b2, more, rfl, rfl, second, third⟩ := (isHigh_decodeUnit_iff lead rest).1 isHigh
  rw [decodeUnit_three (by decide) (isContinuation_of_isHighSecond second) third] at first
  change ((unitsOf .wide more).map CodePoint.ofUnit).head? = some low at first
  cases more with
  | nil => cases first
  | cons b3 more =>
    rw [unitsOf_cons, List.map_cons, List.head?_cons, Option.some.injEq] at first
    obtain ⟨b4, b5, more, rfl, rfl, fifth, last⟩ :=
      (isLow_decodeUnit_iff b3 more).1 (first ▸ isLow)
    exact (startsWithPair_iff _).2 ⟨b1, b2, b4, b5, more, rfl, second, third, fifth, last⟩

/-- The text of bytes, legal or not, is that of their units. -/
theorem textOf_eq_ofUnits (data : Bytes) : textOf data = Text.ofUnits (unitsOf .wide data) := by
  induction data using scan_induction decodeCharacter with
  | nil => rfl
  | cons lead rest ih =>
    rw [textOf_cons, ih]
    cases pair : startsWithPair (lead :: rest) with
    | true =>
      obtain ⟨b1, b2, b4, b5, more, e, second, third, fifth, last⟩ := (startsWithPair_iff _).1 pair
      cases e
      have tail1 := isContinuation_of_isHighSecond second
      have tail4 := isContinuation_of_isLowSecond fifth
      have high := (isHigh_decodeUnit_iff 0xED (b1 :: b2 :: 0xED :: b4 :: b5 :: more)).2
        ⟨b1, b2, _, rfl, rfl, second, third⟩
      have low := (isLow_decodeUnit_iff 0xED (b4 :: b5 :: more)).2 ⟨b4, b5, _, rfl, rfl, fifth, last⟩
      rw [decodeUnit_three (by decide) tail1 third] at high
      rw [decodeUnit_three (by decide) tail4 last] at low
      rw [decodeCharacter_pair second third fifth last, unitsOf_cons,
        decodeUnit_three (by decide) tail1 third]
      simp only [Nat.reduceSub, List.drop_succ_cons, List.drop_zero]
      rw [unitsOf_cons, decodeUnit_three (by decide) tail4 last]
      simp only [Nat.reduceSub, List.drop_succ_cons, List.drop_zero]
      rw [Text.ofUnits_pair high low, pairValue_eq_ofPair second fifth]
    | false =>
      have apart := mt startsWithPair_of_cutsPair (Bool.eq_false_iff.1 pair)
      rw [decodeCharacter_of_not_pair pair, unitsOf_cons, Text.ofUnits_cons apart]

theorem textOf_encodeUnits (units : List CodeUnit) :
    textOf (encodeUnits units) = Text.ofUnits units := by
  rw [textOf_eq_ofUnits, unitsOf_wide_encodeUnits]

end ModifiedUtf8
