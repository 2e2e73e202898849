import Mathlib.Data.List.GetD
import ModifiedUtf8.Edit
import ModifiedUtf8.Proofs.Cutting
import ModifiedUtf8.Proofs.RoundTrip

/-!
# Repair of cut buffers

A repair refuses its length (`repair_cases`), or it touches nothing, or it puts one zero byte before
the end of the bytes that it was given (`repairFirst_cases`).

If these are legal bytes cut anywhere, the zero byte goes to a character boundary of what was cut
(`repair_of_cut`).  The last lead byte begins the sequence that holds the last byte, so the cut before
it leaves legal bytes.  It separates a pair only where a low surrogate follows a high one; then the
repair goes back by another sequence, and before a high surrogate no other one waits.
-/

namespace ModifiedUtf8

/-! ## What a repair can do -/

theorem lastLead?_le {buffer : Bytes} {start index : Nat}
    (h : lastLead? buffer start = some index) : index ≤ start := by
  induction start with
  | zero => cases h
  | succ start ih =>
    rw [lastLead?] at h
    split at h
    · obtain rfl := Option.some.inj h
      exact Nat.le_refl _
    · exact Nat.le_succ_of_le (ih h)

theorem boundaryOf_le (buffer : Bytes) (index : Nat) : boundaryOf buffer index ≤ index := by
  unfold boundaryOf
  split
  · exact Nat.sub_le index 3
  · exact Nat.le_refl index

theorem set_zero_of_getD {buffer : Bytes} {i : Nat} (lt : i < buffer.length)
    (h : buffer.getD i 0 = 0) : buffer.set i 0 = buffer := by
  rw [List.getD_eq_getElem?_getD, List.getElem?_eq_getElem lt, Option.getD_some] at h
  rw [← h, List.set_getElem_self lt]

theorem repairFirst_cases {size : Nat} {buffer : Bytes} (least : 2 ≤ size)
    (le : size ≤ buffer.length) :
    repairFirst size buffer = .refuse buffer .notTerminated ∨
    ∃ stop log, stop < size ∧ repairFirst size buffer = ⟨buffer.set stop 0, log, .ok stop⟩ := by
  unfold repairFirst
  split
  · exact Or.inl rfl
  next terminated =>
  have same : buffer.set (size - 1) 0 = buffer :=
    set_zero_of_getD (by omega) (by simpa using terminated)
  split
  · exact Or.inr ⟨size - 1, [], by omega, by rw [same]⟩
  split
  · exact Or.inr ⟨size - 1, [], by omega, by rw [same]⟩
  · next index found =>
    have := lastLead?_le found
    have := boundaryOf_le buffer index
    exact Or.inr ⟨boundaryOf buffer index, _, by omega, rfl⟩

/-- A length is refused, or it selects bytes enough to be repaired. -/
theorem repair_cases (length : Size) (buffer : Bytes) :
    (∃ shown, repair length buffer = .refuse buffer (.badRepairLength shown)) ∨
    (∃ type, length = .other type ∧ repair length buffer = .refuse buffer (.notComparable type)) ∨
    ∃ size, length.lengthOf buffer = .ok size ∧ leastRepairable ≤ size ∧ size ≤ buffer.length ∧
      repair length buffer = repairFirst size buffer := by
  cases length with
  | whole =>
    by_cases short : buffer.length < leastRepairable
    · exact Or.inl ⟨_, if_pos short⟩
    · exact Or.inr (Or.inr ⟨_, rfl, Nat.le_of_not_lt short, Nat.le_refl _, if_neg short⟩)
  | int n =>
    by_cases bad : n < leastRepairable ∨ buffer.length < n
    · exact Or.inl ⟨_, if_pos bad⟩
    · obtain ⟨least, le⟩ := not_or.1 bad
      obtain ⟨size, rfl⟩ := Int.eq_ofNat_of_zero_le (Int.le_trans (by decide) (Int.not_lt.1 least))
      have le : size ≤ buffer.length := by omega
      exact Or.inr (Or.inr ⟨size, Size.lengthOf_natCast le, by omega, le, if_neg bad⟩)
  | flag value => exact Or.inl ⟨_, rfl⟩
  | other type => exact Or.inr (Or.inl ⟨type, rfl, rfl⟩)

theorem repair_natCast {size : Nat} {buffer : Bytes} (least : leastRepairable ≤ size)
    (le : size ≤ buffer.length) : repair (.int size) buffer = repairFirst size buffer := by
  rw [repair, if_neg (by omega)]
  rfl

/-! ## The last lead -/

theorem isLead_iff (b : UInt8) : isLead b = true ↔ announcedSize b ≠ 1 := by
  unfold isLead announcedSize
  rw [Bool.and_eq_true, decide_eq_true_eq, decide_eq_true_eq]
  split
  · omega
  · split <;> omega

theorem isLead_of_isContinuation {b : UInt8} (h : isContinuation b = true) : isLead b = false :=
  Bool.eq_false_iff.2 fun lead => (isLead_iff b).1 lead (announcedSize_of_isContinuation h)

theorem getD_append_add (front rest : Bytes) (i : Nat) :
    (front ++ rest).getD (front.length + i) 0 = rest.getD i 0 := by
  rw [List.getD_append_right _ _ _ _ (Nat.le_add_right _ _), Nat.add_sub_cancel_left]

section Cut

variable {front tail : Bytes} {lead : UInt8}

/-- `lastLead?` stops at the lead, behind which there are only continuation bytes. -/
theorem lastLead?_append (nonempty : front ≠ []) (isLead_lead : isLead lead = true)
    (tails : ∀ b ∈ tail, isContinuation b = true) (rest : Bytes) :
    lastLead? (front ++ lead :: (tail ++ rest)) (front.length + tail.length) =
      some front.length := by
  suffices h : ∀ j ≤ tail.length,
      lastLead? (front ++ lead :: (tail ++ rest)) (front.length + j) = some front.length from
    h _ (Nat.le_refl _)
  intro j
  induction j with
  | zero =>
    intro _
    obtain ⟨n, size⟩ := Nat.exists_eq_succ_of_ne_zero (mt List.length_eq_zero_iff.1 nonempty)
    have here : (front ++ lead :: (tail ++ rest)).getD (n + 1) 0 = lead := by
      rw [← Nat.succ_eq_add_one, ← size]
      simp
    rw [Nat.add_zero, size, Nat.succ_eq_add_one, lastLead?, here, if_pos isLead_lead]
  | succ j ih =>
    intro lt
    have here : (front ++ lead :: (tail ++ rest)).getD (front.length + j + 1) 0 = tail[j] := by
      rw [Nat.add_assoc, getD_append_add, List.getD_cons_succ, List.getD_append _ _ _ _ lt,
        List.getD_eq_getElem _ _ lt]
    have other := isLead_of_isContinuation (tails _ (List.getElem_mem (Nat.lt_of_succ_le lt)))
    rw [← Nat.add_assoc, lastLead?, here, if_neg (by rw [other]; decide)]
    exact ih (Nat.le_of_succ_le lt)

theorem followsHigh_append (front rest : Bytes) :
    followsHigh (front ++ rest) front.length = true ↔ EndsHigh front := by
  constructor
  · intro h
    simp only [followsHigh, Bool.and_eq_true, decide_eq_true_eq, beq_iff_eq] at h
    obtain ⟨⟨⟨ge, lead⟩, second⟩, third⟩ := h
    obtain ⟨init, last, rfl, size⟩ : ∃ init last, front = init ++ last ∧ last.length = 3 :=
      ⟨_, _, (List.take_append_drop (front.length - 3) front).symm, by simp; omega⟩
    match last, size with
    | [a, b, c], _ =>
      simp at lead second third
      exact ⟨init, b, c, by rw [lead], second, third⟩
  · rintro ⟨init, b, c, rfl, second, third⟩
    simp [followsHigh, second, third]

theorem boundaryOf_append (front rest : Bytes) (lead : UInt8) :
    (¬ (lead = 0xED ∧ EndsHigh front) ∧
      boundaryOf (front ++ lead :: rest) front.length = front.length) ∨
    ∃ init b c, lead = 0xED ∧ front = init ++ [0xED, b, c] ∧ isHighSecond b = true ∧
      isContinuation c = true ∧ boundaryOf (front ++ lead :: rest) front.length = init.length := by
  have here : (front ++ lead :: rest).getD front.length 0 = lead := by simp
  by_cases moved : lead = 0xED ∧ EndsHigh front
  · obtain ⟨rfl, init, b, c, rfl, second, third⟩ := moved
    refine Or.inr ⟨init, b, c, rfl, rfl, second, third, ?_⟩
    rw [boundaryOf, here, (followsHigh_append _ _).2 ⟨init, b, c, rfl, second, third⟩]
    simp
  · refine Or.inl ⟨moved, ?_⟩
    rw [boundaryOf, here, if_neg]
    rwa [Bool.and_eq_true, beq_iff_eq, followsHigh_append]

end Cut

/-! ## Cut bytes -/

section Repair

variable {front tail : Bytes} {lead : UInt8}

theorem repairFirst_of_ascii (ascii : lead.toNat < 0x80) (back : Bytes) :
    repairFirst (front.length + 2) (front ++ lead :: 0 :: back) =
      ⟨front ++ lead :: 0 :: back, [], .ok (front.length + 1)⟩ := by
  simp [repairFirst, ascii]

theorem repairFirst_of_lead (nonempty : front ≠ []) (isLead_lead : isLead lead = true)
    (tails : ∀ b ∈ tail, isContinuation b = true) (back : Bytes) :
    let buffer := front ++ lead :: (tail ++ 0 :: back)
    let stop := boundaryOf buffer front.length
    repairFirst (front.length + tail.length + 2) buffer =
      ⟨buffer.set stop 0, [.repaired (front.length + tail.length + 1) stop], .ok stop⟩ := by
  intro buffer stop
  have terminated : buffer.getD (front.length + (tail.length + 1)) 0 = 0 := by
    rw [getD_append_add, List.getD_cons_succ]
    exact getD_append_add tail (0 :: back) 0
  have last : 0x80 ≤ (buffer.getD (front.length + tail.length) 0).toNat := by
    have inside : tail.length < (lead :: tail).length := Nat.lt_succ_self _
    rw [getD_append_add, ← List.cons_append, List.getD_append _ _ _ _ inside,
      List.getD_eq_getElem _ _ inside]
    rcases List.mem_cons.1 (List.getElem_mem inside) with e | mem
    · rw [e]
      simp only [isLead, Bool.and_eq_true, decide_eq_true_eq] at isLead_lead
      omega
    · have := (isContinuation_iff _).1 (tails _ mem)
      omega
  have size : front.length + tail.length + 2 - 1 = front.length + (tail.length + 1) := by omega
  rw [repairFirst, size, terminated, if_neg (by decide), Nat.add_sub_cancel,
    if_neg (Nat.not_lt.2 last), lastLead?_append nonempty isLead_lead tails]
  rfl

theorem not_endsHigh_of_ascii (ascii : lead.toNat < 0x80) : ¬ EndsHigh (front ++ [lead]) := by
  rintro ⟨init, b, c, split, -, third⟩
  have split : front ++ [lead] = init ++ [0xED, b] ++ [c] := by
    rw [split, List.append_assoc]
    rfl
  obtain rfl : lead = c := List.singleton_inj.1 (List.append_inj' split rfl).2
  rw [isContinuation_iff] at third
  omega

variable {legacy : Bool}

/-- `boundaryOf` of a lead behind legal bytes cuts no sequence and no pair. -/
theorem IsConcatenation.exists_boundaryOf (h : IsConcatenation legacy front) (lead : UInt8)
    (written rest : Bytes) :
    ∃ kept dropped, front ++ lead :: written = kept ++ dropped ∧ IsConcatenation legacy kept ∧
      kept.length ≤ front.length ∧ kept.length ∈ boundaries (front ++ lead :: written) ∧
      boundaryOf (front ++ lead :: rest) front.length = kept.length := by
  rcases boundaryOf_append front rest lead with ⟨stay, stop⟩ |
    ⟨init, b, c, rfl, rfl, second, third, stop⟩
  · refine ⟨front, _, rfl, h, Nat.le_refl _, h.length_mem_boundaries fun high low => stay ?_, stop⟩
    obtain ⟨b, more, e, -⟩ := low
    exact ⟨(List.cons.inj e).1, high⟩
  · have legal := h.of_append_high second third
    have split : init ++ [0xED, b, c] ++ 0xED :: written =
        init ++ (0xED :: b :: c :: 0xED :: written) := by
      rw [List.append_assoc]
      rfl
    rw [split]
    refine ⟨init, _, rfl, legal, by simp, legal.length_mem_boundaries fun _ low => ?_, stop⟩
    obtain ⟨d, more, e, low⟩ := low
    cases e
    rw [isHighSecond_iff] at second
    rw [isLowSecond_iff] at low
    omega

theorem IsConcatenation.exists_repair {data : Bytes} (h : IsConcatenation legacy data) {k : Nat}
    (least : 5 ≤ k) (le : k ≤ data.length) (back : Bytes) :
    ∃ kept dropped log, data = kept ++ dropped ∧ IsConcatenation legacy kept ∧ kept.length ≤ k ∧
      kept.length ∈ boundaries data ∧ repair (.int (k + 1 : Nat)) (data.take k ++ 0 :: back) =
        ⟨(data.take k ++ 0 :: back).set kept.length 0, log, .ok kept.length⟩ := by
  have run : repair (.int (k + 1 : Nat)) (data.take k ++ 0 :: back) =
      repairFirst (k + 1) (data.take k ++ 0 :: back) := by
    refine repair_natCast (Nat.succ_le_succ least) ?_
    rw [List.length_append, List.length_take, List.length_cons]
    omega
  rw [run]
  obtain ⟨front, lead, part, more, rfl, rfl, before, short, tails, single⟩ :=
    h.exists_cut (by omega) le
  have cut : (front ++ lead :: (part ++ more)).take (front.length + part.length + 1) =
      front ++ lead :: part := by
    rw [Nat.add_assoc, List.take_length_add_append, List.take_succ_cons, List.take_left]
  rw [cut, List.append_assoc, List.cons_append]
  by_cases alone : announcedSize lead = 1
  · obtain ⟨ascii, legal⟩ := single alone
    obtain rfl : part = [] := List.length_eq_zero_iff.1 (by omega)
    have split : front ++ lead :: ([] ++ more) = front ++ [lead] ++ more := List.append_cons _ _ _
    have size : (front ++ [lead]).length = front.length + 1 := List.length_append
    have same : (front ++ lead :: 0 :: back).set (front.length + 1) 0 =
        front ++ lead :: 0 :: back := by simp
    refine ⟨front ++ [lead], more, [], split, legal, Nat.le_of_eq size, ?_, ?_⟩
    · rw [split]
      exact legal.length_mem_boundaries fun high => absurd high (not_endsHigh_of_ascii ascii)
    · rw [size, List.nil_append, same]
      exact repairFirst_of_ascii ascii back
  · have nonempty : front ≠ [] := by
      rintro rfl
      have := announcedSize_le lead
      rw [List.length_nil] at least
      omega
    obtain ⟨kept, dropped, split, legal, shorter, boundary, stop⟩ :=
      before.exists_boundaryOf lead (part ++ more) (part ++ 0 :: back)
    refine ⟨kept, dropped, [.repaired (front.length + part.length + 1) kept.length], split, legal,
      by omega, boundary, ?_⟩
    rw [← stop]
    exact repairFirst_of_lead nonempty ((isLead_iff lead).2 alone) tails back

/-- `repair` ends legal bytes, cut anywhere behind the fifth, at a character boundary. -/
theorem repair_of_cut (legacy : Bool) {data : Bytes}
    (legal : isLegalWithin data .whole legacy = .ok true) {k : Nat} (least : 5 ≤ k)
    (le : k ≤ data.length) (back : Bytes) :
    ∃ content log stop,
      repair (.int (k + 1 : Nat)) (data.take k ++ 0 :: back) = ⟨content, log, .ok stop⟩ ∧
      stop ≤ k ∧ content.take stop = data.take stop ∧
      isLegalWithin content (.int stop) legacy = .ok true ∧ stop ∈ boundaries data ∧
      textOf (content.take stop) <+: textOf data := by
  rw [isLegalWithin_whole, Except.ok.injEq, isLegal_iff] at legal
  obtain ⟨kept, dropped, log, rfl, keptLegal, shorter, boundary, run⟩ :=
    legal.exists_repair least le back
  have front : (((kept ++ dropped).take k ++ 0 :: back).set kept.length 0).take kept.length =
      kept := by
    rw [List.take_set_of_le (Nat.le_refl _), List.take_append_of_le_length, List.take_take,
      Nat.min_eq_left shorter, List.take_left]
    rw [List.length_take]
    omega
  refine ⟨_, log, kept.length, run, shorter, ?_, ?_, boundary, ?_⟩
  · rw [front, List.take_left]
  · rw [isLegalWithin, Size.lengthOf_natCast, Except.map, front, (isLegal_iff kept).2 keptLegal]
    rw [List.length_set, List.length_append, List.length_take]
    omega
  · rw [front, textOf_append boundary]
    exact List.prefix_append _ _

/-- An overlong form, a high surrogate alone, and a pair cut in its second half. -/
theorem repair_of_cut_pair :
    isLegalWithin [0xC1, 0x81, 0xED, 0xA0, 0xBD, 0xED, 0xA0, 0xBD, 0xED, 0xB8, 0x80] .whole true =
      .ok true ∧ 5 ≤ 10 ∧
    10 ≤ ([0xC1, 0x81, 0xED, 0xA0, 0xBD, 0xED, 0xA0, 0xBD, 0xED, 0xB8, 0x80] : Bytes).length ∧
    ∃ content log stop, repair (.int 11)
        [0xC1, 0x81, 0xED, 0xA0, 0xBD, 0xED, 0xA0, 0xBD, 0xED, 0xB8, 0x00, 0xFF] =
          ⟨content, log, .ok stop⟩ ∧
      stop ≤ 10 ∧
      content.take stop =
        [0xC1, 0x81, 0xED, 0xA0, 0xBD, 0xED, 0xA0, 0xBD, 0xED, 0xB8, 0x80].take stop ∧
      isLegalWithin content (.int stop) true = .ok true ∧
      stop ∈ boundaries [0xC1, 0x81, 0xED, 0xA0, 0xBD, 0xED, 0xA0, 0xBD, 0xED, 0xB8, 0x80] ∧
      textOf (content.take stop) <+:
        textOf [0xC1, 0x81, 0xED, 0xA0, 0xBD, 0xED, 0xA0, 0xBD, 0xED, 0xB8, 0x80] := by
  have legal : isLegalWithin [0xC1, 0x81, 0xED, 0xA0, 0xBD, 0xED, 0xA0, 0xBD, 0xED, 0xB8, 0x80]
      .whole true = .ok true := by decide
  exact ⟨legal, by decide, by decide,
    repair_of_cut true legal (k := 10) (by decide) (by decide) [0xFF]⟩

example : repair (.int 11)
    [0xC1, 0x81, 0xED, 0xA0, 0xBD, 0xED, 0xA0, 0xBD, 0xED, 0xB8, 0x00, 0xFF] =
      ⟨[0xC1, 0x81, 0xED, 0xA0, 0xBD, 0x00, 0xA0, 0xBD, 0xED, 0xB8, 0x00, 0xFF], [.repaired 10 5],
        .ok 5⟩ := rfl

end Repair

end ModifiedUtf8
