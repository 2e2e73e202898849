import Mathlib.Data.List.Chain
import ModifiedUtf8.Basic

/-!
# Splitting and joining surrogates

`joinSurrogates` keeps a text as it is exactly if no high surrogate is followed by a low one
(`joinSurrogates_eq_self_iff`), never changes the units of a text (`toUnits_joinSurrogates`), and is
what is left of a text that went through its units (`ofUnits_toUnits`).  Units come back from a text
unchanged (`toUnits_ofUnits`).

A text may be joined in two parts wherever the cut does not go through a pair
(`joinSurrogates_append`), and only there is what the first part gives the beginning of the whole
(`joinSurrogates_prefix_iff`).
-/

namespace ModifiedUtf8

/-! ## Code points -/

namespace CodePoint

@[simp] theorem val_ofUnit (unit : CodeUnit) : (ofUnit unit).val = unit.toNat := rfl

theorem isHigh_iff (c : CodePoint) : c.isHigh = true ↔ c.val / 1024 = 54 := by
  simp only [isHigh, Bool.and_eq_true, decide_eq_true_eq]
  omega

theorem isLow_iff (c : CodePoint) : c.isLow = true ↔ c.val / 1024 = 55 := by
  simp only [isLow, Bool.and_eq_true, decide_eq_true_eq]
  omega

theorem toUnits_of_le {c : CodePoint} (h : c.val ≤ 0xFFFF) :
    c.toUnits = [Width.wide.store c.val] := by
  rw [toUnits, if_pos h]

@[simp] theorem toUnits_ofUnit (unit : CodeUnit) : (ofUnit unit).toUnits = [unit] := by
  have bound := unit.toNat_lt
  rw [toUnits_of_le (by rw [val_ofUnit]; omega), val_ofUnit, Width.wide_store_toNat]

theorem ofUnit_store {c : CodePoint} (h : c.val ≤ 0xFFFF) : ofUnit (Width.wide.store c.val) = c :=
  Fin.ext (Width.toNat_store_natCast (by rw [Width.wide_bound]; omega))

theorem exists_toUnits_of_lt {c : CodePoint} (h : 0xFFFF < c.val) : ∃ high low,
    c.toUnits = [high, low] ∧ (ofUnit high).isHigh = true ∧ (ofUnit low).isLow = true ∧
      ofPair (ofUnit high) (ofUnit low) = c := by
  have bound := c.isLt
  have high : (Width.wide.store (split c.val).1).toNat = 0xD800 + (c.val - 0x10000) / 1024 := by
    rw [Width.toNat_store, Width.wide_bound, split]
    omega
  have low : (Width.wide.store (split c.val).2).toNat = 0xDC00 + (c.val - 0x10000) % 1024 := by
    rw [Width.toNat_store, Width.wide_bound, split]
    omega
  refine ⟨_, _, if_neg (by omega), ?_, ?_, ?_⟩
  · rw [isHigh_iff, val_ofUnit, high]
    omega
  · rw [isLow_iff, val_ofUnit, low]
    omega
  · ext
    simp only [ofPair, val_ofUnit, high, low]
    omega

theorem toUnits_ofPair {c d : CodePoint} (high : c.isHigh = true) (low : d.isLow = true) :
    (ofPair c d).toUnits = c.toUnits ++ d.toUnits := by
  rw [isHigh_iff] at high
  rw [isLow_iff] at low
  have hc : c.val ≤ 0xFFFF := by omega
  have hd : d.val ≤ 0xFFFF := by omega
  have supplementary : ¬ (ofPair c d).val ≤ 0xFFFF := by
    simp only [ofPair]
    omega
  rw [toUnits_of_le hc, toUnits_of_le hd, toUnits, if_neg supplementary]
  simp only [List.cons_append, List.nil_append, List.cons.injEq, ← UInt16.toNat_inj,
    Width.toNat_store, Width.wide_bound, split, ofPair, and_true]
  omega

end CodePoint

namespace Text

/-! ## Joining -/

/-- No high surrogate is directly followed by a low one. -/
def NoPair (text : Text) : Prop := text.IsChain fun c d => ¬ (c.isHigh = true ∧ d.isLow = true)

instance (text : Text) : Decidable text.NoPair :=
  inferInstanceAs (Decidable (text.IsChain _))

/-- A cut between two parts of a text goes through a pair. -/
def CutsPair (front back : Text) : Prop :=
  ∃ high low, front.getLast? = some high ∧ high.isHigh = true ∧
    back.head? = some low ∧ low.isLow = true

theorem cutsPair_singleton_cons {c d : CodePoint} {rest : Text} :
    CutsPair [c] (d :: rest) ↔ c.isHigh = true ∧ d.isLow = true := by
  constructor
  · rintro ⟨high, low, last, isHigh, first, isLow⟩
    cases last
    cases first
    exact ⟨isHigh, isLow⟩
  · rintro ⟨isHigh, isLow⟩
    exact ⟨c, d, rfl, isHigh, rfl, isLow⟩

theorem not_cutsPair_nil (back : Text) : ¬ CutsPair [] back := by
  rintro ⟨high, low, last, -⟩
  cases last

theorem not_cutsPair_append {front middle back : Text} (h : ¬ CutsPair front (middle ++ back))
    (h' : ¬ CutsPair middle back) : ¬ CutsPair (front ++ middle) back := by
  cases middle with
  | nil => rwa [List.append_nil]
  | cons c middle =>
    rintro ⟨high, low, last, pair⟩
    rw [List.getLast?_append, List.getLast?_cons, Option.some_or, ← List.getLast?_cons] at last
    exact h' ⟨high, low, last, pair⟩

theorem CutsPair.cons {front back : Text} (h : CutsPair front back) (c : CodePoint) :
    CutsPair (c :: front) back := by
  obtain ⟨high, low, last, isHigh, first, isLow⟩ := h
  refine ⟨high, low, ?_, isHigh, first, isLow⟩
  rw [List.getLast?_cons, last, Option.getD_some]

theorem joinSurrogates_pair {c d : CodePoint} (high : c.isHigh = true) (low : d.isLow = true)
    (rest : Text) : joinSurrogates (c :: d :: rest) = CodePoint.ofPair c d :: joinSurrogates rest := by
  rw [joinSurrogates, high, low]
  rfl

theorem joinSurrogates_cons {c : CodePoint} {rest : Text} (h : ¬ CutsPair [c] rest) :
    joinSurrogates (c :: rest) = c :: joinSurrogates rest := by
  cases rest with
  | nil => rfl
  | cons d rest =>
    rw [joinSurrogates, if_neg]
    rwa [Bool.and_eq_true, ← cutsPair_singleton_cons]

theorem joinSurrogates_append {front back : Text} (h : ¬ CutsPair front back) :
    joinSurrogates (front ++ back) = joinSurrogates front ++ joinSurrogates back := by
  fun_induction joinSurrogates front with
  | case1 => rfl
  | case2 c => exact joinSurrogates_cons h
  | case3 c d rest pair ih =>
    obtain ⟨high, low⟩ := Bool.and_eq_true_iff.1 pair
    rw [List.cons_append, List.cons_append, joinSurrogates_pair high low,
      ih fun cut => h ((cut.cons d).cons c), List.cons_append]
  | case4 c d rest pair ih =>
    have apart : ¬ CutsPair [c] (d :: (rest ++ back)) := by
      rwa [cutsPair_singleton_cons, ← Bool.and_eq_true]
    rw [List.cons_append, List.cons_append, joinSurrogates_cons apart, ← List.cons_append,
      ih fun cut => h (cut.cons c), List.cons_append]

/-- Where a cut goes through a pair, the parts share the text up to the high surrogate. -/
theorem joinSurrogates_of_cutsPair {front back : Text} (h : CutsPair front back) :
    ∃ init high low rest, high.isHigh = true ∧ joinSurrogates front = init ++ [high] ∧
      joinSurrogates (front ++ back) = init ++ CodePoint.ofPair high low :: rest := by
  obtain ⟨high, low, last, isHigh, first, isLow⟩ := h
  obtain ⟨init, rfl⟩ := List.getLast?_eq_some_iff.1 last
  obtain ⟨more, rfl⟩ := List.head?_eq_some_iff.1 first
  have apart (rest : Text) : ¬ CutsPair init (high :: rest) := by
    rintro ⟨-, low', -, -, first', isLow'⟩
    cases first'
    rw [CodePoint.isHigh_iff] at isHigh
    rw [CodePoint.isLow_iff] at isLow'
    omega
  refine ⟨joinSurrogates init, high, low, joinSurrogates more, isHigh, ?_, ?_⟩
  · rw [joinSurrogates_append (apart [])]
    rfl
  · rw [List.append_assoc, List.singleton_append, joinSurrogates_append (apart _),
      joinSurrogates_pair isHigh isLow]

theorem joinSurrogates_prefix_iff (front back : Text) :
    joinSurrogates front <+: joinSurrogates (front ++ back) ↔ ¬ CutsPair front back := by
  constructor
  · intro within cut
    obtain ⟨init, high, low, rest, isHigh, part, whole⟩ := joinSurrogates_of_cutsPair cut
    rw [part, whole, List.prefix_append_right_inj, List.cons_prefix_cons] at within
    have same := congrArg Fin.val within.1
    rw [CodePoint.isHigh_iff] at isHigh
    simp only [CodePoint.ofPair] at same
    omega
  · intro apart
    rw [joinSurrogates_append apart]
    exact List.prefix_append _ _

theorem dropLast_joinSurrogates_prefix (front back : Text) :
    (joinSurrogates front).dropLast <+: joinSurrogates (front ++ back) := by
  by_cases cut : CutsPair front back
  · obtain ⟨init, high, low, rest, -, part, whole⟩ := joinSurrogates_of_cutsPair cut
    rw [part, whole, List.dropLast_concat]
    exact List.prefix_append _ _
  · exact (List.dropLast_prefix _).trans ((joinSurrogates_prefix_iff front back).2 cut)

theorem length_joinSurrogates_le (text : Text) : (joinSurrogates text).length ≤ text.length := by
  fun_induction joinSurrogates text with
  | case1 => exact Nat.le_refl _
  | case2 => exact Nat.le_refl _
  | case3 c d rest _ ih =>
    simp only [List.length_cons]
    omega
  | case4 c d rest _ ih =>
    simp only [List.length_cons] at ih ⊢
    omega

theorem joinSurrogates_eq_self_iff (text : Text) : joinSurrogates text = text ↔ text.NoPair := by
  fun_induction joinSurrogates text with
  | case1 => simp [NoPair]
  | case2 => simp [NoPair]
  | case3 c d rest pair =>
    have shorter := length_joinSurrogates_le rest
    refine iff_of_false (fun e => ?_) fun h => ?_
    · have := congrArg List.length e
      simp only [List.length_cons] at this
      omega
    · exact (List.isChain_cons_cons.1 h).1 (Bool.and_eq_true_iff.1 pair)
  | case4 c d rest pair ih =>
    rw [List.cons.injEq, ih, NoPair, NoPair, List.isChain_cons_cons, ← Bool.and_eq_true]
    exact ⟨fun h => ⟨pair, h.2⟩, fun h => ⟨rfl, h.2⟩⟩

/-! ## Units -/

theorem toUnits_nil : toUnits [] = [] := rfl

theorem toUnits_cons (c : CodePoint) (text : Text) :
    toUnits (c :: text) = c.toUnits ++ toUnits text := rfl

theorem toUnits_append (front back : Text) :
    toUnits (front ++ back) = toUnits front ++ toUnits back := List.flatMap_append

theorem toUnits_joinSurrogates (text : Text) : toUnits (joinSurrogates text) = toUnits text := by
  fun_induction joinSurrogates text with
  | case1 => rfl
  | case2 => rfl
  | case3 c d rest pair ih =>
    obtain ⟨high, low⟩ := Bool.and_eq_true_iff.1 pair
    rw [toUnits_cons, CodePoint.toUnits_ofPair high low, ih, List.append_assoc]
    rfl
  | case4 c d rest _ ih =>
    rw [toUnits_cons, ih]
    rfl

theorem toUnits_ofUnits (units : List CodeUnit) : toUnits (ofUnits units) = units := by
  rw [ofUnits, toUnits_joinSurrogates]
  induction units with
  | nil => rfl
  | cons unit rest ih =>
    rw [List.map_cons, toUnits_cons, ih, CodePoint.toUnits_ofUnit]
    rfl

theorem ofUnits_pair {high low : CodeUnit} (isHigh : (CodePoint.ofUnit high).isHigh = true)
    (isLow : (CodePoint.ofUnit low).isLow = true) (units : List CodeUnit) :
    ofUnits (high :: low :: units) =
      CodePoint.ofPair (CodePoint.ofUnit high) (CodePoint.ofUnit low) :: ofUnits units :=
  joinSurrogates_pair isHigh isLow _

theorem ofUnits_cons {unit : CodeUnit} {units : List CodeUnit}
    (h : ¬ CutsPair [CodePoint.ofUnit unit] (units.map CodePoint.ofUnit)) :
    ofUnits (unit :: units) = CodePoint.ofUnit unit :: ofUnits units :=
  joinSurrogates_cons h

theorem ofUnits_append {front back : List CodeUnit}
    (h : ¬ CutsPair (front.map CodePoint.ofUnit) (back.map CodePoint.ofUnit)) :
    ofUnits (front ++ back) = ofUnits front ++ ofUnits back := by
  rw [ofUnits, List.map_append, joinSurrogates_append h]
  rfl

theorem ofUnits_toUnits_singleton (c : CodePoint) : ofUnits c.toUnits = [c] := by
  by_cases h : c.val ≤ 0xFFFF
  · rw [CodePoint.toUnits_of_le h, ofUnits, List.map_singleton, CodePoint.ofUnit_store h]
    rfl
  · obtain ⟨high, low, e, isHigh, isLow, pair⟩ := CodePoint.exists_toUnits_of_lt (Nat.lt_of_not_le h)
    rw [e, ofUnits_pair isHigh isLow, pair]
    rfl

/-- A pair between the units of texts is made of surrogates that the texts hold. -/
theorem cutsPair_of_toUnits {c : CodePoint} {rest : Text}
    (h : CutsPair (c.toUnits.map CodePoint.ofUnit) ((toUnits rest).map CodePoint.ofUnit)) :
    CutsPair [c] rest := by
  obtain ⟨high, low, last, isHigh, first, isLow⟩ := h
  have atEnd : high = c := by
    by_cases le : c.val ≤ 0xFFFF
    · rw [CodePoint.toUnits_of_le le, List.map_singleton, CodePoint.ofUnit_store le] at last
      exact (Option.some.inj last).symm
    · obtain ⟨u, v, e, -, lowHalf, -⟩ := CodePoint.exists_toUnits_of_lt (Nat.lt_of_not_le le)
      rw [e] at last
      obtain rfl : CodePoint.ofUnit v = high := Option.some.inj last
      rw [CodePoint.isHigh_iff] at isHigh
      rw [CodePoint.isLow_iff] at lowHalf
      omega
  cases rest with
  | nil => cases first
  | cons d rest =>
    refine ⟨c, d, rfl, atEnd ▸ isHigh, rfl, ?_⟩
    rw [toUnits_cons] at first
    by_cases le : d.val ≤ 0xFFFF
    · rw [CodePoint.toUnits_of_le le, List.singleton_append, List.map_cons,
        CodePoint.ofUnit_store le] at first
      exact Option.some.inj first ▸ isLow
    · obtain ⟨u, v, e, highHalf, -⟩ := CodePoint.exists_toUnits_of_lt (Nat.lt_of_not_le le)
      rw [e] at first
      obtain rfl : CodePoint.ofUnit u = low := Option.some.inj first
      rw [CodePoint.isLow_iff] at isLow
      rw [CodePoint.isHigh_iff] at highHalf
      omega

/-- A text that goes through its units comes back joined. -/
theorem ofUnits_toUnits (text : Text) : ofUnits (toUnits text) = joinSurrogates text := by
  fun_induction joinSurrogates text with
  | case1 => rfl
  | case2 c => rw [toUnits_cons, toUnits_nil, List.append_nil, ofUnits_toUnits_singleton]
  | case3 c d rest pair ih =>
    obtain ⟨high, low⟩ := Bool.and_eq_true_iff.1 pair
    have hc : c.val ≤ 0xFFFF := by
      rw [CodePoint.isHigh_iff] at high
      omega
    have hd : d.val ≤ 0xFFFF := by
      rw [CodePoint.isLow_iff] at low
      omega
    rw [← CodePoint.ofUnit_store hc] at high
    rw [← CodePoint.ofUnit_store hd] at low
    rw [toUnits_cons, toUnits_cons, CodePoint.toUnits_of_le hc, CodePoint.toUnits_of_le hd,
      List.singleton_append, List.singleton_append, ofUnits_pair high low, ih,
      CodePoint.ofUnit_store hc, CodePoint.ofUnit_store hd]
  | case4 c d rest pair ih =>
    have apart : ¬ CutsPair [c] (d :: rest) := by
      rwa [cutsPair_singleton_cons, ← Bool.and_eq_true]
    rw [toUnits_cons, ofUnits_append fun cut => apart (cutsPair_of_toUnits cut),
      ofUnits_toUnits_singleton, ih]
    rfl

example : ofUnits (toUnits [0xD800, 0xD83D, 0xDE00, 0xDC00]) = [0xD800, 0x1F600, 0xDC00] := by
  decide

end Text

end ModifiedUtf8
