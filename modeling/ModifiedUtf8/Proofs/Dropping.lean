import Mathlib.Order.Bounds.Defs
import ModifiedUtf8.Proofs.Repairing

/-!
# What a repair drops

The last boundary before a cut is where the character begins that holds the last byte.  A repair goes
back to it and no further, unless that character looks like the low surrogate of a high one before it
(`repair_drops_last_iff`).  Every lead `ED` behind a high surrogate looks so to a repair, whose search
for it does not ask for the byte after the lead.
-/

namespace ModifiedUtf8

variable {legacy : Bool}

/-! ## The last boundary -/

section LastBoundary

variable {front rest : Bytes} {lead : UInt8}

theorem add_size_le_of_mem_boundaries (here : front.length ∈ boundaries (front ++ lead :: rest))
    {j : Nat} (mem : j ∈ boundaries (front ++ lead :: rest)) (behind : front.length < j) :
    front.length + (decodeCharacter lead rest).size ≤ j := by
  obtain ⟨m, rfl⟩ := Nat.exists_eq_add_of_le (Nat.le_of_lt behind)
  rw [add_mem_boundaries_iff here, mem_boundaries_cons_iff] at mem
  rcases mem with zero | ⟨i, -, sum⟩
  · omega
  · omega

theorem isGreatest_boundary (here : front.length ∈ boundaries (front ++ lead :: rest)) {k : Nat}
    (lt : front.length < k) (le : k ≤ front.length + (decodeCharacter lead rest).size) :
    IsGreatest {j | j ∈ boundaries (front ++ lead :: rest) ∧ j < k} front.length := by
  constructor
  · exact ⟨here, lt⟩
  · rintro j ⟨mem, before⟩
    by_contra later
    have := add_size_le_of_mem_boundaries here mem (Nat.lt_of_not_le later)
    omega

end LastBoundary

theorem IsSequence.length_le_size {lead : UInt8} {tail : Bytes}
    (h : IsSequence legacy (lead :: tail)) (rest : Bytes) :
    tail.length + 1 ≤ (decodeCharacter lead (tail ++ rest)).size := by
  obtain ⟨unit, scanned⟩ := h.exists_scanUnits .wide
  have first := scanned rest
  rw [List.cons_append, scanUnits_cons] at first
  have size := congrArg Decoded.size (List.cons.inj first).1
  rcases decodeCharacter_cases lead (tail ++ rest) with
    ⟨b1, b2, b4, b5, more, rfl, -, -, -, -, -, e⟩ | ⟨-, e⟩
  · obtain ⟨_, _, split, announced, -⟩ := h.exists_cons
    cases split
    have most := announcedSize_le 0xED
    rw [e]
    show tail.length + 1 ≤ 6
    omega
  · rw [e, size]
    exact Nat.le_refl _

theorem IsConcatenation.isGreatest_pair {init : Bytes} {b c d e : UInt8}
    (h : IsConcatenation legacy init) (second : isHighSecond b = true)
    (third : isContinuation c = true) (fifth : isLowSecond d = true) (last : isContinuation e = true)
    (behind : Bytes) {k : Nat} (lt : init.length + 3 < k) (le : k ≤ init.length + 6) :
    IsGreatest {j | j ∈ boundaries (init ++ 0xED :: b :: c :: 0xED :: d :: e :: behind) ∧ j < k}
      init.length := by
  have here : init.length ∈ boundaries (init ++ 0xED :: b :: c :: 0xED :: d :: e :: behind) := by
    apply h.length_mem_boundaries
    rintro - ⟨b', more, split, low⟩
    cases split
    rw [isHighSecond_iff] at second
    rw [isLowSecond_iff] at low
    omega
  apply isGreatest_boundary here (by omega)
  rw [decodeCharacter_pair second third fifth last]
  exact le

/-! ## Where a repair stops -/

/-- The character at `b`, of which a cut at `k` leaves no more than three bytes, begins with the lead
of a low surrogate, and a high one stands before it. -/
def LooksLow (data : Bytes) (b k : Nat) : Prop :=
  data[b]? = some 0xED ∧ EndsHigh (data.take b) ∧ k ≤ b + 3

theorem looksLow_append {front rest : Bytes} {lead : UInt8} {k : Nat} :
    LooksLow (front ++ lead :: rest) front.length k ↔
      lead = 0xED ∧ EndsHigh front ∧ k ≤ front.length + 3 := by
  simp [LooksLow]

/-- The last character begins with the last lead, unless that is `ED` behind a high surrogate. -/
theorem IsConcatenation.isGreatest_lead {front tail : Bytes} {lead : UInt8}
    (h : IsConcatenation legacy front) (found : IsSequence legacy (lead :: tail))
    (apart : ¬ (lead = 0xED ∧ EndsHigh front)) (behind : Bytes) {k : Nat} (lt : front.length < k)
    (le : k ≤ front.length + tail.length + 1) :
    let data := front ++ lead :: (tail ++ behind)
    IsGreatest {j | j ∈ boundaries data ∧ j < k} front.length ∧ ¬ LooksLow data front.length k := by
  intro data
  have size := found.length_le_size behind
  have here : front.length ∈ boundaries data := by
    apply h.length_mem_boundaries
    rintro high ⟨d, more, split, -⟩
    exact apart ⟨(List.cons.inj split).1, high⟩
  refine ⟨isGreatest_boundary here lt (by omega), ?_⟩
  rw [looksLow_append]
  exact fun looks => apart ⟨looks.1, looks.2.1⟩

/-- Behind a high surrogate the last character is a pair with it, or begins with `ED` and looks low. -/
theorem IsConcatenation.isGreatest_behind_high {init tail : Bytes} {b c : UInt8}
    (h : IsConcatenation legacy (init ++ [0xED, b, c])) (second : isHighSecond b = true)
    (third : isContinuation c = true) (found : IsSequence legacy (0xED :: tail)) (behind : Bytes)
    {k : Nat} (lt : init.length + 3 < k) (le : k ≤ init.length + 6) :
    let data := init ++ [0xED, b, c] ++ 0xED :: (tail ++ behind)
    (IsGreatest {j | j ∈ boundaries data ∧ j < k} init.length ∧ ¬ LooksLow data init.length k) ∨
      (IsGreatest {j | j ∈ boundaries data ∧ j < k} (init.length + 3) ∧
        LooksLow data (init.length + 3) k) := by
  intro data
  have length : (init ++ [0xED, b, c]).length = init.length + 3 := List.length_append
  obtain ⟨_, _, split, announced, tails⟩ := found.exists_cons
  cases split
  obtain ⟨d, e, rfl⟩ : ∃ d e, tail = [d, e] := List.length_eq_two.1 (Nat.succ.inj announced.symm)
  by_cases low : BeginsLow (0xED :: ([d, e] ++ behind))
  · obtain ⟨_, _, split, fifth⟩ := low
    cases split
    have shape : data = init ++ 0xED :: b :: c :: 0xED :: d :: e :: behind := by simp [data]
    rw [shape, looksLow_append]
    exact Or.inl ⟨(h.of_append_high second third).isGreatest_pair second third fifth
      (tails e (by simp)) behind lt le, by omega⟩
  · have size : 3 ≤ (decodeCharacter 0xED ([d, e] ++ behind)).size := found.length_le_size behind
    have here : (init ++ [0xED, b, c]).length ∈ boundaries data :=
      h.length_mem_boundaries fun _ => low
    have greatest := isGreatest_boundary here (k := k) (by omega) (by omega)
    have looks : LooksLow data (init ++ [0xED, b, c]).length k :=
      looksLow_append.2 ⟨rfl, ⟨init, b, c, rfl, second, third⟩, by omega⟩
    rw [length] at greatest looks
    exact Or.inr ⟨greatest, looks⟩

/-- `boundaryOf` is the start of the last character, or three bytes before one that looks low. -/
theorem IsConcatenation.boundaryOf_eq {front tail : Bytes} {lead : UInt8}
    (h : IsConcatenation legacy front) (found : IsSequence legacy (lead :: tail))
    (behind written : Bytes) {k : Nat} (lt : front.length < k)
    (le : k ≤ front.length + tail.length + 1) :
    let data := front ++ lead :: (tail ++ behind)
    let stop := boundaryOf (front ++ lead :: written) front.length
    ∃ b, IsGreatest {j | j ∈ boundaries data ∧ j < k} b ∧
      ((¬ LooksLow data b k ∧ stop = b) ∨ (LooksLow data b k ∧ stop + 3 = b)) := by
  intro data stop
  rcases boundaryOf_append front written lead with ⟨stay, there⟩ |
    ⟨init, b, c, rfl, rfl, second, third, moved⟩
  · obtain ⟨greatest, plain⟩ := h.isGreatest_lead found stay behind lt le
    exact ⟨front.length, greatest, Or.inl ⟨plain, there⟩⟩
  · have length : (init ++ [0xED, b, c]).length = init.length + 3 := List.length_append
    -- `ED` announces three bytes, so the cut leaves no more than those of a pair.
    obtain ⟨_, _, split, announced, -⟩ := found.exists_cons
    cases split
    have three : tail.length + 1 = 3 := announced.symm
    rw [length] at lt le
    rcases h.isGreatest_behind_high second third found behind lt (by omega) with
      ⟨greatest, plain⟩ | ⟨greatest, looks⟩
    · exact ⟨init.length, greatest, Or.inl ⟨plain, moved⟩⟩
    · exact ⟨init.length + 3, greatest, Or.inr ⟨looks, congrArg (· + 3) moved⟩⟩

theorem IsConcatenation.exists_repairFirst {front part missing : Bytes} {lead : UInt8}
    (h : IsConcatenation legacy front) (found : IsSequence legacy (lead :: (part ++ missing)))
    (least : 5 ≤ front.length + part.length + 1) (behind : Bytes) :
    let data := front ++ lead :: (part ++ missing ++ behind)
    let k := front.length + part.length + 1
    ∃ b content log stop, IsGreatest {j | j ∈ boundaries data ∧ j < k} b ∧
      repairFirst (k + 1) (front ++ lead :: (part ++ [0])) = ⟨content, log, .ok stop⟩ ∧
      ((¬ LooksLow data b k ∧ b ≤ stop) ∨ (LooksLow data b k ∧ stop + 3 = b)) := by
  intro data k
  obtain ⟨_, _, split, announced, tails⟩ := found.exists_cons
  cases split
  rw [List.length_append] at announced
  by_cases single : announcedSize lead = 1
  · obtain rfl : part = [] := List.length_eq_zero_iff.1 (by omega)
    obtain rfl : missing = [] := List.length_eq_zero_iff.1 (by omega)
    cases found with
    | one pos ascii =>
      have other : ¬ (lead = 0xED ∧ EndsHigh front) := by
        rintro ⟨rfl, -⟩
        exact absurd ascii (by decide)
      obtain ⟨greatest, plain⟩ :=
        h.isGreatest_lead (.one pos ascii) other behind (Nat.lt_succ_self _) (Nat.le_refl _)
      exact ⟨front.length, _, _, _, greatest, repairFirst_of_ascii ascii [],
        Or.inl ⟨plain, Nat.le_succ _⟩⟩
  · have nonempty : front ≠ [] := by
      have few := announcedSize_le lead
      rintro rfl
      rw [List.length_nil] at least
      omega
    have repaired := repairFirst_of_lead nonempty ((isLead_iff lead).2 single)
      (fun b mem => tails b (List.mem_append_left missing mem)) []
    have lt : front.length < k := by omega
    have le : k ≤ front.length + (part ++ missing).length + 1 := by
      rw [List.length_append]
      omega
    obtain ⟨b, greatest, stops⟩ := h.boundaryOf_eq found behind (part ++ [0]) lt le
    refine ⟨b, _, _, _, greatest, repaired, ?_⟩
    exact stops.imp_left fun ⟨plain, stop⟩ => ⟨plain, Nat.le_of_eq stop.symm⟩

/-- `repair` drops the last character only, unless that looks like the low surrogate of a high one
before it. -/
theorem repair_drops_last_iff (legacy : Bool) {data : Bytes}
    (legal : isLegalWithin data .whole legacy = .ok true) {k : Nat} (least : 5 ≤ k)
    (le : k ≤ data.length) :
    ∃ b content log stop, IsGreatest {j | j ∈ boundaries data ∧ j < k} b ∧
      repair .whole (data.take k ++ [0]) = ⟨content, log, .ok stop⟩ ∧
      (b ≤ stop ↔ ¬ LooksLow data b k) ∧ (LooksLow data b k → stop + 3 = b) := by
  rw [isLegalWithin_whole, Except.ok.injEq, isLegal_iff] at legal
  obtain ⟨first, rest, rfl, rfl⟩ := exists_append_of_le_length le
  have size : (first ++ [0]).length = first.length + 1 := List.length_append
  have run : repair .whole (first ++ [0]) = repairFirst (first.length + 1) (first ++ [0]) := by
    rw [repair, if_neg (by rw [size, leastRepairable]; omega), size]
  rw [List.take_left, run]
  obtain ⟨front, part, missing, behind, rfl, rfl, nonempty, before, found⟩ :=
    legal.exists_part (List.length_pos_iff.1 (by omega))
  obtain ⟨lead, part, rfl⟩ := List.exists_cons_of_ne_nil nonempty
  have whole : front ++ lead :: part ++ (missing ++ behind) =
      front ++ lead :: (part ++ missing ++ behind) := by simp
  have cut : front ++ lead :: part ++ [0] = front ++ lead :: (part ++ [0]) := List.append_assoc _ _ _
  have length : (front ++ lead :: part).length = front.length + part.length + 1 := List.length_append
  rw [length] at least
  rw [whole, cut, length]
  obtain ⟨b, content, log, stop, greatest, repaired, stops⟩ :=
    before.exists_repairFirst found least behind
  refine ⟨b, content, log, stop, greatest, repaired, ?_⟩
  rcases stops with ⟨plain, le⟩ | ⟨looks, stop⟩
  · exact ⟨iff_of_true le plain, fun looks => absurd looks plain⟩
  · exact ⟨iff_of_false (by omega) (not_not_intro looks), fun _ => stop⟩

/-- A letter, a high surrogate alone, and a pair cut in its second half. -/
theorem repair_drops_last_iff_of_pair :
    isLegalWithin [0x61, 0xED, 0xA0, 0xBD, 0xED, 0xA0, 0xBD, 0xED, 0xB8, 0x80] .whole false =
      .ok true ∧ 5 ≤ 9 ∧
    9 ≤ ([0x61, 0xED, 0xA0, 0xBD, 0xED, 0xA0, 0xBD, 0xED, 0xB8, 0x80] : Bytes).length ∧
    4 ∈ boundaries [0x61, 0xED, 0xA0, 0xBD, 0xED, 0xA0, 0xBD, 0xED, 0xB8, 0x80] ∧
    ∃ content log stop,
      repair .whole [0x61, 0xED, 0xA0, 0xBD, 0xED, 0xA0, 0xBD, 0xED, 0xB8, 0x00] =
        ⟨content, log, .ok stop⟩ ∧ 4 ≤ stop := by
  have legal : isLegalWithin [0x61, 0xED, 0xA0, 0xBD, 0xED, 0xA0, 0xBD, 0xED, 0xB8, 0x80]
      .whole false = .ok true := by decide
  have here : 4 ∈ boundaries [0x61, 0xED, 0xA0, 0xBD, 0xED, 0xA0, 0xBD, 0xED, 0xB8, 0x80] := by
    decide
  obtain ⟨b, content, log, stop, greatest, repaired, iff, -⟩ :=
    repair_drops_last_iff false legal (k := 9) (by decide) (by decide)
  have ge : 4 ≤ b := greatest.2 ⟨here, by decide⟩
  have plain : ¬ LooksLow [0x61, 0xED, 0xA0, 0xBD, 0xED, 0xA0, 0xBD, 0xED, 0xB8, 0x80] b 9 := by
    rintro ⟨-, -, near⟩
    have before : ∀ j ∈ boundaries [0x61, 0xED, 0xA0, 0xBD, 0xED, 0xA0, 0xBD, 0xED, 0xB8, 0x80],
        j < 9 → j ≤ 4 := by decide
    have := before b greatest.1.1 greatest.1.2
    omega
  exact ⟨legal, by decide, by decide, here, content, log, stop, repaired,
    Nat.le_trans ge (iff.2 plain)⟩

/-- Of two high surrogates in a row `repair` drops both. -/
theorem repair_of_two_highs :
    isLegalWithin [0xED, 0xA0, 0x80, 0xED, 0xA0, 0x80] .whole false = .ok true ∧
    boundaries [0xED, 0xA0, 0x80, 0xED, 0xA0, 0x80] = [0, 3, 6] ∧
    repair .whole [0xED, 0xA0, 0x80, 0xED, 0xA0, 0x80, 0x00] =
      ⟨[0x00, 0xA0, 0x80, 0xED, 0xA0, 0x80, 0x00], [.repaired 6 0], .ok 0⟩ ∧
    ¬ ∀ (data : Bytes) (k b : Nat), isLegalWithin data .whole false = .ok true → 5 ≤ k →
      k ≤ data.length → IsGreatest {j | j ∈ boundaries data ∧ j < k} b →
      ∃ content log stop, repair .whole (data.take k ++ [0]) = ⟨content, log, .ok stop⟩ ∧
        b ≤ stop := by
  have legal : isLegalWithin [0xED, 0xA0, 0x80, 0xED, 0xA0, 0x80] .whole false = .ok true := by
    decide
  have starts : boundaries [0xED, 0xA0, 0x80, 0xED, 0xA0, 0x80] = [0, 3, 6] := by decide
  have repaired : repair .whole [0xED, 0xA0, 0x80, 0xED, 0xA0, 0x80, 0x00] =
      ⟨[0x00, 0xA0, 0x80, 0xED, 0xA0, 0x80, 0x00], [.repaired 6 0], .ok 0⟩ := rfl
  refine ⟨legal, starts, repaired, fun always => ?_⟩
  have greatest : IsGreatest {j | j ∈ boundaries [0xED, 0xA0, 0x80, 0xED, 0xA0, 0x80] ∧ j < 6} 3 := by
    rw [starts]
    constructor
    · exact ⟨by decide, by decide⟩
    · rintro j ⟨mem, lt⟩
      simp at mem
      omega
  obtain ⟨content, log, stop, again, ge⟩ :=
    always _ 6 3 legal (by decide) (by decide) greatest
  have same := congrArg Outcome.result (repaired.symm.trans again)
  obtain rfl := Except.ok.inj same
  exact absurd ge (by decide)

end ModifiedUtf8
