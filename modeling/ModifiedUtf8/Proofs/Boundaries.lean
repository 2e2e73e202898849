import ModifiedUtf8.Proofs.Scan

/-!
# Character boundaries

Bytes may be cut at a character boundary: the texts of the two parts make up the text of the whole
(`textOf_append`), and the boundaries behind the cut are those of the second part
(`add_mem_boundaries_iff`).  A cut anywhere else goes through a character, and then the parts have
more characters than the whole (`length_textOf_append_lt`).

Both come from what happens at the first character: either it ends before the cut, and it is read
the same without the bytes behind the cut (`decodeCharacter_append`), or what the cut leaves of it
is read as characters of their own (`length_textOf_behind_lt`).
-/

namespace ModifiedUtf8

/-! ## The first character -/

/-- Everything that a reader of characters can do at one place. -/
theorem decodeCharacter_cases (lead : UInt8) (rest : Bytes) :
    (∃ b1 b2 b4 b5 more, lead = 0xED ∧ rest = b1 :: b2 :: 0xED :: b4 :: b5 :: more ∧
      isHighSecond b1 = true ∧ isContinuation b2 = true ∧ isLowSecond b4 = true ∧
      isContinuation b5 = true ∧ decodeCharacter lead rest = ⟨pairValue b1 b2 b4 b5, 6⟩) ∨
    (startsWithPair (lead :: rest) = false ∧ decodeCharacter lead rest =
      ⟨CodePoint.ofUnit (decodeUnit .wide lead rest).value,
        (decodeUnit .wide lead rest).size⟩) := by
  cases pair : startsWithPair (lead :: rest) with
  | true =>
    obtain ⟨b1, b2, b4, b5, more, e, second, third, fifth, last⟩ := (startsWithPair_iff _).1 pair
    cases e
    exact Or.inl ⟨b1, b2, b4, b5, more, rfl, rfl, second, third, fifth, last,
      decodeCharacter_pair second third fifth last more⟩
  | false => exact Or.inr ⟨rfl, decodeCharacter_of_not_pair pair⟩

theorem decodeUnit_size_pos (w : Width) (lead : UInt8) (rest : Bytes) :
    0 < (decodeUnit w lead rest).size := by
  rcases decodeUnit_cases w lead rest with ⟨b, more, -, -, -, e⟩ | ⟨b, c, more, -, -, -, -, e⟩ | e
  all_goals simp [e]

theorem decodeCharacter_size_pos (lead : UInt8) (rest : Bytes) :
    0 < (decodeCharacter lead rest).size := by
  rcases decodeCharacter_cases lead rest with ⟨b1, b2, b4, b5, more, -, -, -, -, -, -, e⟩ | ⟨-, e⟩
  · simp [e]
  · simpa [e] using decodeUnit_size_pos .wide lead rest

theorem decodeUnit_size_le (w : Width) (lead : UInt8) (rest : Bytes) :
    (decodeUnit w lead rest).size ≤ rest.length + 1 := by
  rcases decodeUnit_cases w lead rest with ⟨b, more, rfl, -, -, e⟩ | ⟨b, c, more, rfl, -, -, -, e⟩ | e
  all_goals simp [e]

theorem decodeCharacter_size_le (lead : UInt8) (rest : Bytes) :
    (decodeCharacter lead rest).size ≤ rest.length + 1 := by
  rcases decodeCharacter_cases lead rest with
    ⟨b1, b2, b4, b5, more, -, rfl, -, -, -, -, e⟩ | ⟨-, e⟩
  · simp [e]
  · simpa [e] using decodeUnit_size_le .wide lead rest

theorem decodeUnit_append {w : Width} {lead : UInt8} {rest back : Bytes}
    (h : (decodeUnit w lead (rest ++ back)).size ≤ rest.length + 1) :
    decodeUnit w lead rest = decodeUnit w lead (rest ++ back) := by
  rcases decodeUnit_cases w lead rest with ⟨b, more, rfl, kind, tail, e⟩ |
    ⟨b, c, more, rfl, kind, tail, last, e⟩ | e
  · rw [e, List.cons_append, decodeUnit_two kind tail]
  · rw [e, List.cons_append, List.cons_append, decodeUnit_three kind tail last]
  · -- A complete sequence that ends before the cut would have been found without the rest, too.
    have whole : (decodeUnit w lead rest).size = 1 := by rw [e]
    rcases decodeUnit_cases w lead (rest ++ back) with ⟨b, more, split, kind, tail, e'⟩ |
      ⟨b, c, more, split, kind, tail, last, e'⟩ | e'
    · rw [e'] at h
      match rest, h with
      | b' :: rest, _ =>
        cases split
        rw [decodeUnit_two kind tail] at whole
        cases whole
    · rw [e'] at h
      match rest, h with
      | b' :: c' :: rest, _ =>
        cases split
        rw [decodeUnit_three kind tail last] at whole
        cases whole
    · rw [e, e']

theorem startsWithPair_append {front : Bytes} (h : startsWithPair front = true) (back : Bytes) :
    startsWithPair (front ++ back) = true := by
  obtain ⟨b1, b2, b4, b5, more, rfl, second, third, fifth, last⟩ := (startsWithPair_iff _).1 h
  exact (startsWithPair_iff _).2 ⟨b1, b2, b4, b5, more ++ back, rfl, second, third, fifth, last⟩

/-- `decodeCharacter` does not look behind the character that it finds. -/
theorem decodeCharacter_append {lead : UInt8} {rest back : Bytes}
    (h : (decodeCharacter lead (rest ++ back)).size ≤ rest.length + 1) :
    decodeCharacter lead rest = decodeCharacter lead (rest ++ back) := by
  rcases decodeCharacter_cases lead (rest ++ back) with
    ⟨b1, b2, b4, b5, more, rfl, split, second, third, fifth, last, e⟩ | ⟨single, e⟩
  · rw [e] at h ⊢
    match rest, h with
    | c1 :: c2 :: c3 :: c4 :: c5 :: rest, _ =>
      cases split
      exact decodeCharacter_pair second third fifth last rest
  · rw [e] at h ⊢
    have single' : startsWithPair (lead :: rest) = false := by
      rw [Bool.eq_false_iff] at single ⊢
      exact fun pair => single (startsWithPair_append pair back)
    rw [decodeCharacter_of_not_pair single', decodeUnit_append h]

/-! ## Boundaries -/

theorem positionsFrom_add {α : Type} (start : Nat) (items : List (Decoded α)) :
    positionsFrom start items = (positionsFrom 0 items).map (start + ·) := by
  induction items generalizing start with
  | nil => rfl
  | cons d rest ih =>
    simp only [positionsFrom, List.map_cons, Nat.zero_add, Nat.add_zero]
    rw [ih (start + d.size), ih d.size, List.map_map]
    simp only [List.cons.injEq, true_and]
    exact List.map_congr_left fun k _ => Nat.add_assoc start d.size k

theorem zero_mem_boundaries (data : Bytes) : 0 ∈ boundaries data := by
  unfold boundaries
  cases scanCharacters data <;> exact List.mem_cons_self

theorem mem_boundaries_cons_iff {lead : UInt8} {rest : Bytes} {k : Nat} :
    k ∈ boundaries (lead :: rest) ↔ k = 0 ∨
      ∃ j ∈ boundaries (rest.drop ((decodeCharacter lead rest).size - 1)),
        (decodeCharacter lead rest).size + j = k := by
  rw [boundaries, scanCharacters, scan_cons, positionsFrom, Nat.zero_add, positionsFrom_add,
    List.mem_cons, List.mem_map]
  rfl

/-- At a boundary the first character ends before the cut, which is a boundary of the rest. -/
theorem length_mem_boundaries_cons_iff {lead : UInt8} {rest back : Bytes} :
    (lead :: rest).length ∈ boundaries (lead :: rest ++ back) ↔
      (decodeCharacter lead (rest ++ back)).size ≤ rest.length + 1 ∧
        (rest.drop ((decodeCharacter lead (rest ++ back)).size - 1)).length ∈
          boundaries (rest.drop ((decodeCharacter lead (rest ++ back)).size - 1) ++ back) := by
  have pos := decodeCharacter_size_pos lead (rest ++ back)
  generalize size : (decodeCharacter lead (rest ++ back)).size = n at pos ⊢
  rw [List.cons_append, mem_boundaries_cons_iff, size, List.length_cons, List.length_drop]
  constructor
  · rintro (zero | ⟨j, mem, sum⟩)
    · omega
    · have le : n - 1 ≤ rest.length := by omega
      obtain rfl : j = rest.length - (n - 1) := by omega
      rw [List.drop_append_of_le_length le] at mem
      exact ⟨by omega, mem⟩
  · rintro ⟨le, mem⟩
    rw [← List.drop_append_of_le_length (by omega)] at mem
    exact Or.inr ⟨_, mem, by omega⟩

theorem add_mem_boundaries_iff {front back : Bytes}
    (h : front.length ∈ boundaries (front ++ back)) {k : Nat} :
    front.length + k ∈ boundaries (front ++ back) ↔ k ∈ boundaries back := by
  induction size : front.length using Nat.strongRecOn generalizing front with
  | _ n ih =>
    subst size
    cases front with
    | nil => rw [List.length_nil, Nat.zero_add, List.nil_append]
    | cons lead rest =>
      obtain ⟨le, h⟩ := length_mem_boundaries_cons_iff.1 h
      have pos := decodeCharacter_size_pos lead (rest ++ back)
      have later := ih _ (by rw [List.length_drop, List.length_cons]; omega) h rfl
      rw [← later, List.cons_append, mem_boundaries_cons_iff,
        List.drop_append_of_le_length (by omega)]
      generalize (decodeCharacter lead (rest ++ back)).size = m at le pos ⊢
      rw [List.length_drop, List.length_cons]
      constructor
      · rintro (zero | ⟨j, mem, sum⟩)
        · omega
        · obtain rfl : j = rest.length - (m - 1) + k := by omega
          exact mem
      · exact fun mem => Or.inr ⟨_, mem, by omega⟩

/-! ## Cutting a text -/

theorem textOf_append {front back : Bytes} (h : front.length ∈ boundaries (front ++ back)) :
    textOf (front ++ back) = textOf front ++ textOf back := by
  induction size : front.length using Nat.strongRecOn generalizing front with
  | _ n ih =>
    subst size
    cases front with
    | nil => rfl
    | cons lead rest =>
      obtain ⟨le, h⟩ := length_mem_boundaries_cons_iff.1 h
      have pos := decodeCharacter_size_pos lead (rest ++ back)
      have later := ih _ (by rw [List.length_drop, List.length_cons]; omega) h rfl
      rw [List.cons_append, textOf_cons, textOf_cons, decodeCharacter_append le,
        List.drop_append_of_le_length (by omega), later, List.cons_append]

/-- A continuation byte without a lead is a character. -/
theorem textOf_continuation {b : UInt8} (h : isContinuation b = true) (rest : Bytes) :
    textOf (b :: rest) = CodePoint.ofUnit b.toUInt16 :: textOf rest := by
  rcases decodeCharacter_cases b rest with ⟨_, _, _, _, _, rfl, -⟩ | ⟨-, e⟩
  · exact absurd h (by decide)
  · rw [decodeUnit_one (announcedSize_of_isContinuation h)] at e
    rw [textOf_cons, e]
    rfl

theorem textOf_continuations_append {tail : Bytes} (h : ∀ b ∈ tail, isContinuation b = true)
    (rest : Bytes) : textOf (tail ++ rest) =
      tail.map (fun b => CodePoint.ofUnit b.toUInt16) ++ textOf rest := by
  induction tail with
  | nil => rfl
  | cons b tail ih =>
    rw [List.forall_mem_cons] at h
    rw [List.cons_append, textOf_continuation h.1, ih h.2, List.map_cons, List.cons_append]

theorem length_textOf_lt_drop_continuations {tail : Bytes}
    (h : ∀ b ∈ tail, isContinuation b = true) {k : Nat} (lt : k < tail.length) (more : Bytes) :
    (textOf more).length < (textOf (tail.drop k ++ more)).length := by
  have left : ∀ b ∈ tail.drop k, isContinuation b = true := fun b mem =>
    h b (List.mem_of_mem_drop mem)
  rw [textOf_continuations_append left, List.length_append, List.length_map, List.length_drop]
  omega

/-- A low surrogate without a high one is a character. -/
theorem textOf_low {b c : UInt8} (second : isLowSecond b = true) (last : isContinuation c = true)
    (rest : Bytes) : textOf (0xED :: b :: c :: rest) =
      CodePoint.ofUnit (Width.wide.store (threeValue 0xED b c)) :: textOf rest := by
  rcases decodeCharacter_cases 0xED (b :: c :: rest) with
    ⟨_, _, _, _, _, -, split, high, -⟩ | ⟨-, e⟩
  · cases split
    rw [isHighSecond_iff] at high
    rw [isLowSecond_iff] at second
    omega
  · rw [decodeUnit_three (by decide) (isContinuation_of_isLowSecond second) last] at e
    rw [textOf_cons, e]
    rfl

/-- A cut inside a pair leaves the low surrogate, or continuation bytes. -/
theorem length_textOf_lt_drop_pair {b1 b2 b4 b5 : UInt8} (second : isHighSecond b1 = true)
    (third : isContinuation b2 = true) (fifth : isLowSecond b4 = true)
    (last : isContinuation b5 = true) {k : Nat} (lt : k < 5) (more : Bytes) :
    (textOf more).length < (textOf ([b1, b2, 0xED, b4, b5].drop k ++ more)).length := by
  by_cases before : k ≤ 2
  · have high : ∀ b ∈ [b1, b2].drop k, isContinuation b = true := by
      have both : ∀ b ∈ [b1, b2], isContinuation b = true := by
        simp [isContinuation_of_isHighSecond second, third]
      exact fun b mem => both b (List.mem_of_mem_drop mem)
    have split : [b1, b2, 0xED, b4, b5].drop k ++ more =
        [b1, b2].drop k ++ (0xED :: b4 :: b5 :: more) := by
      have whole : [b1, b2, 0xED, b4, b5] = [b1, b2] ++ [0xED, b4, b5] := rfl
      rw [whole, List.drop_append_of_le_length before, List.append_assoc]
      rfl
    rw [split, textOf_continuations_append high, textOf_low fifth last, List.length_append,
      List.length_cons]
    omega
  · obtain ⟨j, rfl⟩ := Nat.exists_eq_add_of_lt (Nat.lt_of_not_le before)
    have low : ∀ b ∈ [b4, b5], isContinuation b = true := by
      simp [isContinuation_of_isLowSecond fifth, last]
    have inside : j < [b4, b5].length := by
      rw [List.length_cons, List.length_singleton]
      omega
    have split : [b1, b2, 0xED, b4, b5].drop (2 + j + 1) = [b4, b5].drop j := by
      rw [Nat.add_assoc, Nat.add_comm j, ← Nat.add_assoc, ← List.drop_drop]
      rfl
    rw [split]
    exact length_textOf_lt_drop_continuations low inside more

theorem eq_drop_append_of_append_eq {rest back tail more : Bytes} (split : rest ++ back = tail ++ more)
    (le : rest.length ≤ tail.length) : back = tail.drop rest.length ++ more := by
  have behind := congrArg (List.drop rest.length) split
  rwa [List.drop_left, List.drop_append_of_le_length le] at behind

/-- What a cut leaves of the first character behind it is read as further characters. -/
theorem length_textOf_behind_lt {lead : UInt8} {rest back : Bytes}
    (h : rest.length + 1 < (decodeCharacter lead (rest ++ back)).size) :
    (textOf ((rest ++ back).drop ((decodeCharacter lead (rest ++ back)).size - 1))).length <
      (textOf back).length := by
  rcases decodeCharacter_cases lead (rest ++ back) with
    ⟨b1, b2, b4, b5, more, -, split, second, third, fifth, last, e⟩ | ⟨-, e⟩
  · rw [e] at h ⊢
    have cut : rest.length < 5 := Nat.lt_of_succ_lt_succ h
    have tail : rest ++ back = [b1, b2, 0xED, b4, b5] ++ more := split
    rw [tail, eq_drop_append_of_append_eq tail (Nat.le_of_lt cut)]
    exact length_textOf_lt_drop_pair second third fifth last cut more
  · rw [e] at h ⊢
    rcases decodeUnit_cases .wide lead (rest ++ back) with ⟨b, more, split, -, second, e'⟩ |
      ⟨b, c, more, split, -, second, last, e'⟩ | e'
    · rw [e'] at h ⊢
      have cut : rest.length < 1 := Nat.lt_of_succ_lt_succ h
      have tail : rest ++ back = [b] ++ more := split
      rw [tail, eq_drop_append_of_append_eq tail (Nat.le_of_lt cut)]
      exact length_textOf_lt_drop_continuations (by simpa using second) cut more
    · rw [e'] at h ⊢
      have cut : rest.length < 2 := Nat.lt_of_succ_lt_succ h
      have tail : rest ++ back = [b, c] ++ more := split
      rw [tail, eq_drop_append_of_append_eq tail (Nat.le_of_lt cut)]
      exact length_textOf_lt_drop_continuations (by simp [second, last]) cut more
    · rw [e'] at h
      exact absurd h (by simp)

/-- A cut through a character makes more characters. -/
theorem length_textOf_append_lt {front back : Bytes}
    (h : front.length ∉ boundaries (front ++ back)) :
    (textOf (front ++ back)).length < (textOf front).length + (textOf back).length := by
  induction size : front.length using Nat.strongRecOn generalizing front with
  | _ n ih =>
    subst size
    cases front with
    | nil => exact absurd (zero_mem_boundaries _) h
    | cons lead rest =>
      rw [length_mem_boundaries_cons_iff, not_and] at h
      have pos := decodeCharacter_size_pos lead (rest ++ back)
      rw [List.cons_append, textOf_cons, textOf_cons, List.length_cons, List.length_cons]
      by_cases le : (decodeCharacter lead (rest ++ back)).size ≤ rest.length + 1
      · have later := ih _ (by rw [List.length_drop, List.length_cons]; omega) (h le) rfl
        rw [List.drop_append_of_le_length (by omega), decodeCharacter_append le]
        omega
      · have behind := length_textOf_behind_lt (Nat.lt_of_not_le le)
        omega

theorem length_textOf_append_le (front back : Bytes) :
    (textOf (front ++ back)).length ≤ (textOf front).length + (textOf back).length := by
  by_cases h : front.length ∈ boundaries (front ++ back)
  · rw [textOf_append h, List.length_append]
  · exact Nat.le_of_lt (length_textOf_append_lt h)

/-- `textOf back` is enough behind `textOf front` exactly at a boundary. -/
theorem textOf_append_eq_iff {front back : Bytes} {text : Text}
    (h : (textOf back).length ≤ text.length) :
    textOf front ++ text = textOf (front ++ back) ↔
      front.length ∈ boundaries (front ++ back) ∧ text = textOf back := by
  by_cases cut : front.length ∈ boundaries (front ++ back)
  · rw [textOf_append cut, List.append_cancel_left_eq]
    exact ⟨fun e => ⟨cut, e⟩, fun e => e.2⟩
  · refine iff_of_false (fun e => ?_) fun e => cut e.1
    have longer := length_textOf_append_lt cut
    rw [← e, List.length_append] at longer
    omega

end ModifiedUtf8
