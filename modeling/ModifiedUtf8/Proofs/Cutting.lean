import ModifiedUtf8.Proofs.Boundaries
import ModifiedUtf8.Proofs.Legality

/-!
# Cutting legal bytes

Legal bytes are cut between two sequences, and each part is legal.  Every byte lies in one sequence
(`IsConcatenation.exists_sequence`), of which a cut leaves a part (`IsConcatenation.exists_part`), and
both scans of units, of what comes before a cut and of what comes behind it, make up the scan of the
whole (`IsConcatenation.unitsOf_append`).

A cut between two sequences is a character boundary unless it separates a high surrogate from a low
one (`IsConcatenation.length_mem_boundaries`).  Both grammars are meant, the legacy one as well.
-/

namespace ModifiedUtf8

variable {legacy : Bool}

/-! ## One sequence -/

theorem IsSequence.exists_cons {s : Bytes} (h : IsSequence legacy s) : ∃ lead tail,
    s = lead :: tail ∧ announcedSize lead = tail.length + 1 ∧
      ∀ b ∈ tail, isContinuation b = true := by
  cases h with
  | @one b pos ascii => exact ⟨b, [], rfl, announcedSize_of_lt ascii, List.forall_mem_nil _⟩
  | @two lead b kind tail => exact ⟨lead, [b], rfl, kind, List.forall_mem_singleton.2 tail⟩
  | @three lead b c kind tail last =>
    exact ⟨lead, [b, c], rfl, kind,
      List.forall_mem_cons.2 ⟨tail, List.forall_mem_singleton.2 last⟩⟩

theorem IsSequence.exists_scanUnits {s : Bytes} (h : IsSequence legacy s) (w : Width) :
    ∃ unit, ∀ rest, scanUnits w (s ++ rest) = ⟨unit, s.length⟩ :: scanUnits w rest := by
  cases h with
  | @one b pos ascii =>
    refine ⟨b.toUInt16, fun rest => ?_⟩
    rw [scanUnits, List.singleton_append, scan_cons, decodeUnit_one (announcedSize_of_lt ascii)]
    rfl
  | @two lead b kind tail =>
    refine ⟨w.store (twoValue lead b), fun rest => ?_⟩
    rw [scanUnits, List.cons_append, List.singleton_append, scan_cons, decodeUnit_two kind tail]
    rfl
  | @three lead b c kind tail last =>
    refine ⟨w.store (threeValue lead b c), fun rest => ?_⟩
    rw [scanUnits, List.cons_append, List.cons_append, List.singleton_append, scan_cons,
      decodeUnit_three kind tail last]
    rfl

theorem IsSequence.exists_unitsOf {s : Bytes} (h : IsSequence legacy s) (w : Width) :
    ∃ unit, ∀ rest, unitsOf w (s ++ rest) = unit :: unitsOf w rest := by
  obtain ⟨unit, scanned⟩ := h.exists_scanUnits w
  refine ⟨unit, fun rest => ?_⟩
  rw [unitsOf, scanned, List.map_cons]
  rfl

theorem IsSequence.unitsOf_eq {lead : UInt8} {tail : Bytes} (h : IsSequence legacy (lead :: tail))
    (w : Width) : unitsOf w (lead :: tail) = [(decodeUnit w lead tail).value] := by
  obtain ⟨unit, units⟩ := h.exists_unitsOf w
  have single : unitsOf w (lead :: tail) = [unit] := by
    have := units []
    rwa [List.append_nil] at this
  rw [single]
  rw [unitsOf_cons] at single
  rw [(List.cons.inj single).1]

theorem IsSequence.isContinuation_of_missing {part missing : Bytes}
    (h : IsSequence legacy (part ++ missing)) (nonempty : part ≠ []) :
    ∀ b ∈ missing, isContinuation b = true := by
  obtain ⟨lead, tail, split, -, tails⟩ := h.exists_cons
  cases part with
  | nil => exact absurd rfl nonempty
  | cons first others =>
    obtain ⟨-, rfl⟩ := List.cons.inj split
    exact fun b mem => tails b (List.mem_append_right others mem)

/-! ## Cuts between sequences -/

theorem exists_append_of_le_length {data : Bytes} {k : Nat} (le : k ≤ data.length) :
    ∃ front back, data = front ++ back ∧ k = front.length :=
  ⟨data.take k, data.drop k, (List.take_append_drop k data).symm, (List.length_take_of_le le).symm⟩

namespace IsConcatenation

variable {data front back : Bytes}

/-- Every byte lies in one sequence; `k` counts the bytes up to it. -/
theorem exists_sequence (h : IsConcatenation legacy data) {k : Nat} (pos : 0 < k)
    (le : k ≤ data.length) : ∃ front s back, data = front ++ (s ++ back) ∧
      IsConcatenation legacy front ∧ IsSequence legacy s ∧
      front.length < k ∧ k ≤ front.length + s.length := by
  induction h generalizing k with
  | nil => exact absurd (Nat.lt_of_lt_of_le pos le) (Nat.lt_irrefl 0)
  | @append s rest first _ ih =>
    by_cases inside : k ≤ s.length
    · exact ⟨[], s, rest, rfl, .nil, first, pos, by rwa [List.length_nil, Nat.zero_add]⟩
    · rw [List.length_append] at le
      obtain ⟨front, s', back, rfl, before, found, lt, le'⟩ :=
        ih (k := k - s.length) (by omega) (by omega)
      refine ⟨s ++ front, s', back, (List.append_assoc _ _ _).symm, .append first before, found,
        ?_, ?_⟩
      · rw [List.length_append]
        omega
      · rw [List.length_append]
        omega

theorem exists_part (h : IsConcatenation legacy (front ++ back)) (nonempty : front ≠ []) :
    ∃ init part missing more, front = init ++ part ∧ back = missing ++ more ∧ part ≠ [] ∧
      IsConcatenation legacy init ∧ IsSequence legacy (part ++ missing) := by
  obtain ⟨init, s, more, split, before, found, lt, within⟩ :=
    h.exists_sequence (List.length_pos_iff.2 nonempty) (by simp)
  have start : init <+: front :=
    List.prefix_of_prefix_length_le ⟨_, split.symm⟩ (List.prefix_append _ _) (Nat.le_of_lt lt)
  obtain ⟨part, rfl⟩ := start
  rw [List.append_assoc, List.append_cancel_left_eq] at split
  rw [List.length_append] at lt within
  have inside : part <+: s :=
    List.prefix_of_prefix_length_le ⟨_, split⟩ (List.prefix_append _ _) (by omega)
  obtain ⟨missing, rfl⟩ := inside
  rw [List.append_assoc, List.append_cancel_left_eq] at split
  exact ⟨init, part, missing, more, rfl, split, List.length_pos_iff.1 (by omega), before, found⟩

/-- Legal bytes cut anywhere end with a lead and a `part` of its continuation bytes. -/
theorem exists_cut (h : IsConcatenation legacy data) {k : Nat} (pos : 0 < k)
    (le : k ≤ data.length) : ∃ front lead part more, data = front ++ lead :: (part ++ more) ∧
      k = front.length + part.length + 1 ∧ IsConcatenation legacy front ∧
      part.length < announcedSize lead ∧ (∀ b ∈ part, isContinuation b = true) ∧
      (announcedSize lead = 1 → lead.toNat < 0x80 ∧ IsConcatenation legacy (front ++ [lead])) := by
  obtain ⟨front, s, back, rfl, before, found, lt, le'⟩ := h.exists_sequence pos le
  obtain ⟨lead, tail, rfl, announced, tails⟩ := found.exists_cons
  rw [List.length_cons] at le'
  have part : (tail.take (k - front.length - 1)).length = k - front.length - 1 := by
    rw [List.length_take]
    omega
  refine ⟨front, lead, tail.take (k - front.length - 1), tail.drop (k - front.length - 1) ++ back,
    ?_, by omega, before, by omega, fun b mem => tails b (List.mem_of_mem_take mem), fun single => ?_⟩
  · rw [← List.append_assoc (tail.take _), List.take_append_drop, List.cons_append]
  · obtain rfl : tail = [] := List.length_eq_zero_iff.1 (by omega)
    have legal := before.concat found.isConcatenation
    cases found with
    | one _ ascii => exact ⟨ascii, legal⟩

theorem eq_nil_or_concat (h : IsConcatenation legacy data) : data = [] ∨
    ∃ init s, data = init ++ s ∧ IsConcatenation legacy init ∧ IsSequence legacy s := by
  by_cases empty : data = []
  · exact Or.inl empty
  obtain ⟨init, s, back, rfl, before, found, -, le⟩ :=
    h.exists_sequence (List.length_pos_iff.2 empty) (Nat.le_refl _)
  obtain rfl : back = [] := by
    rw [List.length_append, List.length_append] at le
    exact List.length_eq_zero_iff.1 (by omega)
  exact Or.inr ⟨init, s, by rw [List.append_nil], before, found⟩

theorem unitsOf_append (h : IsConcatenation legacy front) (w : Width) (back : Bytes) :
    unitsOf w (front ++ back) = unitsOf w front ++ unitsOf w back := by
  induction h with
  | nil => rfl
  | @append s rest first _ ih =>
    obtain ⟨unit, units⟩ := first.exists_unitsOf w
    rw [List.append_assoc, units, units, ih, List.cons_append]

end IsConcatenation

/-! ## Cuts through a pair -/

/-- The bytes end with the sequence of a high surrogate. -/
def EndsHigh (front : Bytes) : Prop :=
  ∃ init b c, front = init ++ [0xED, b, c] ∧ isHighSecond b = true ∧ isContinuation c = true

/-- The bytes begin with the first two of a low surrogate. -/
def BeginsLow (back : Bytes) : Prop := ∃ b more, back = 0xED :: b :: more ∧ isLowSecond b = true

theorem IsConcatenation.endsHigh_of_getLast? {front : Bytes} (h : IsConcatenation legacy front)
    {high : CodePoint} (last : ((unitsOf .wide front).map CodePoint.ofUnit).getLast? = some high)
    (isHigh : high.isHigh = true) : EndsHigh front := by
  rcases h.eq_nil_or_concat with rfl | ⟨init, s, rfl, before, found⟩
  · cases last
  obtain ⟨lead, tail, rfl, announced, -⟩ := found.exists_cons
  rw [before.unitsOf_append, found.unitsOf_eq, List.map_append, List.map_singleton,
    List.getLast?_concat, Option.some.injEq] at last
  rw [← last] at isHigh
  obtain ⟨b, c, more, rfl, rfl, second, third⟩ := (isHigh_decodeUnit_iff lead tail).1 isHigh
  have size : more.length + 3 = 3 := announced.symm
  obtain rfl : more = [] := List.length_eq_zero_iff.1 (by omega)
  exact ⟨init, b, c, rfl, second, third⟩

theorem beginsLow_of_head? {back : Bytes} {low : CodePoint}
    (first : ((unitsOf .wide back).map CodePoint.ofUnit).head? = some low)
    (isLow : low.isLow = true) : BeginsLow back := by
  cases back with
  | nil => cases first
  | cons lead rest =>
    rw [unitsOf_cons, List.map_cons, List.head?_cons, Option.some.injEq] at first
    rw [← first] at isLow
    obtain ⟨b, c, more, rfl, rfl, second, -⟩ := (isLow_decodeUnit_iff lead rest).1 isLow
    exact ⟨b, c :: more, rfl, second⟩

/-- A cut between sequences is a boundary unless it separates the halves of a pair. -/
theorem IsConcatenation.length_mem_boundaries {front back : Bytes}
    (h : IsConcatenation legacy front) (apart : EndsHigh front → ¬ BeginsLow back) :
    front.length ∈ boundaries (front ++ back) := by
  have uncut : ¬ Text.CutsPair ((unitsOf .wide front).map CodePoint.ofUnit)
      ((unitsOf .wide back).map CodePoint.ofUnit) := by
    rintro ⟨high, low, last, isHigh, first, isLow⟩
    exact apart (h.endsHigh_of_getLast? last isHigh) (beginsLow_of_head? first isLow)
  have same : textOf front ++ textOf back = textOf (front ++ back) := by
    rw [textOf_eq_ofUnits, textOf_eq_ofUnits, textOf_eq_ofUnits, h.unitsOf_append .wide back,
      Text.ofUnits_append uncut]
  exact ((textOf_append_eq_iff (Nat.le_refl _)).1 same).1

theorem IsConcatenation.of_append_high {init : Bytes} {b c : UInt8}
    (h : IsConcatenation legacy (init ++ [0xED, b, c])) (second : isHighSecond b = true)
    (third : isContinuation c = true) : IsConcatenation legacy init := by
  rcases h.eq_nil_or_concat with empty | ⟨before, s, split, legal, found⟩
  · simp at empty
  have tail := isContinuation_of_isHighSecond second
  rw [isContinuation_iff] at tail third
  cases found with
  | @one d pos ascii =>
    have split : init ++ [0xED, b] ++ [c] = before ++ [d] := by
      rw [← split, List.append_assoc]
      rfl
    obtain rfl : c = d := List.singleton_inj.1 (List.append_inj' split rfl).2
    omega
  | @two lead d kind =>
    have split : init ++ [0xED] ++ [b, c] = before ++ [lead, d] := by
      rw [← split, List.append_assoc]
      rfl
    obtain rfl : b = lead := (List.cons.inj (List.append_inj' split rfl).2).1
    rw [announcedSize_eq_two_iff] at kind
    omega
  | three =>
    obtain ⟨rfl, -⟩ := List.append_inj' split rfl
    exact legal

end ModifiedUtf8
