import ModifiedUtf8.Proofs.Measuring
import ModifiedUtf8.Proofs.Rendering

/-!
# Stopping before the end

A buffer may go on behind the bytes that are asked for, which end at a length or at a zero byte.

A check that looks at the whole buffer stops at a length as long as it asks of each pair and of each
sequence whether it ends there (`passesFrom_iff`).  So bytes behind a length have no part in what is
found out about those before it: whether they are legal, what they measure, and how they are rendered
(`results_eq_of_take_eq`).

Measuring up to a zero byte is measuring with its index as the length.  If the bytes before it are legal,
the loop that reads units from the whole buffer comes to that index and not beyond it, and it takes as
many steps as there were units counted (`measure_whole_eq_findIdx`).
-/

namespace ModifiedUtf8

variable {legacy : Bool} {buffer : Bytes} {stop position : Nat}

/-! ## Checking up to a length -/

/-- A check of a buffer passes from a position to `stop`.  It looks at all of the buffer, and so it asks
whether a pair that it finds, or else a sequence, ends before `stop`. -/
inductive PassesFrom (legacy : Bool) (buffer : Bytes) (stop : Nat) : Nat → Prop where
  | done {position : Nat} (reached : stop ≤ position) : PassesFrom legacy buffer stop position
  | pair {position : Nat} (room : position + 6 ≤ stop) (found : isPairAt buffer position = .ok true)
      (behind : PassesFrom legacy buffer stop (position + 6)) :
      PassesFrom legacy buffer stop position
  | sequence {position : Nat} {s more : Bytes}
      (single : position + 6 ≤ stop → isPairAt buffer position ≠ .ok true)
      (found : buffer.drop position = s ++ more) (form : IsSequence legacy s)
      (room : position + s.length ≤ stop)
      (behind : PassesFrom legacy buffer stop (position + s.length)) :
      PassesFrom legacy buffer stop position

theorem drop_take_of_drop {s more : Bytes} (found : buffer.drop position = s ++ more)
    (room : position + s.length ≤ stop) :
    (buffer.take stop).drop position = s ++ (buffer.take stop).drop (position + s.length) := by
  have split : stop - position = s.length + (stop - (position + s.length)) := by omega
  rw [List.drop_take, List.drop_take, ← List.drop_drop, found, List.drop_left, split,
    List.take_length_add_append]

theorem drop_of_drop_take {s rest : Bytes} (h : (buffer.take stop).drop position = s ++ rest) :
    buffer.drop position = s ++ (buffer.drop position).drop s.length := by
  rw [List.drop_take] at h
  have within : s <+: buffer.drop position := (List.prefix_append s rest).trans (h ▸ List.take_prefix _ _)
  exact (List.prefix_iff_eq_append.1 within).symm

theorem exists_halves_of_isPairAt (legacy : Bool) (room : position + 6 ≤ stop)
    (found : isPairAt buffer position = .ok true) :
    ∃ high low, IsSequence legacy high ∧ IsSequence legacy low ∧
      (buffer.take stop).drop position = high ++ (low ++ (buffer.take stop).drop (position + 6)) := by
  cases suffix : buffer.drop position with
  | nil =>
    rw [isPairAt, Bytes.suffixFrom_natCast, suffix] at found
    split at found <;> cases found
  | cons lead rest =>
    rw [isPairAt_of_drop suffix, Except.ok.injEq] at found
    obtain ⟨b1, b2, b4, b5, more, six, second, third, fifth, last⟩ := (startsWithPair_iff _).1 found
    obtain ⟨high, low⟩ := isSequence_halves legacy second third fifth last
    refine ⟨_, _, high, low, ?_⟩
    rw [six] at suffix
    exact drop_take_of_drop (s := [0xED, b1, b2, 0xED, b4, b5]) suffix room

theorem PassesFrom.isConcatenation (h : PassesFrom legacy buffer stop position) :
    IsConcatenation legacy ((buffer.take stop).drop position) := by
  induction h with
  | @done position reached =>
    have none : (buffer.take stop).drop position = [] := by
      apply List.drop_eq_nil_of_le
      rw [List.length_take]
      omega
    rw [none]
    exact .nil
  | pair room found _ ih =>
    obtain ⟨high, low, first, second, split⟩ := exists_halves_of_isPairAt legacy room found
    rw [split]
    exact .append first (.append second ih)
  | sequence _ found form room _ ih =>
    rw [drop_take_of_drop found room]
    exact .append form ih

theorem IsConcatenation.passesFrom (le : stop ≤ buffer.length)
    (h : IsConcatenation legacy ((buffer.take stop).drop position)) :
    PassesFrom legacy buffer stop position := by
  -- on what is left up to `stop`
  induction left : stop - position using Nat.strongRecOn generalizing position with
  | _ n ih =>
    by_cases reached : stop ≤ position
    · exact .done reached
    by_cases pair : position + 6 ≤ stop ∧ isPairAt buffer position = .ok true
    · obtain ⟨room, found⟩ := pair
      obtain ⟨high, low, first, second, split⟩ := exists_halves_of_isPairAt legacy room found
      rw [split, isConcatenation_append_iff first, isConcatenation_append_iff second] at h
      exact .pair room found (ih _ (by omega) h rfl)
    · generalize suffix : (buffer.take stop).drop position = data at h
      cases h with
      | nil =>
        have size := congrArg List.length suffix
        rw [List.length_drop, List.length_take, List.length_nil] at size
        omega
      | @append s rest form back =>
        have found := drop_of_drop_take suffix
        have room : position + s.length ≤ stop := by
          have size := congrArg List.length suffix
          rw [List.length_drop, List.length_take, List.length_append] at size
          omega
        have pos : 0 < s.length := by
          obtain ⟨lead, tail, rfl, -⟩ := form.exists_cons
          exact Nat.succ_pos _
        rw [drop_take_of_drop found room, List.append_cancel_left_eq] at suffix
        rw [← suffix] at back
        exact .sequence (fun room pairFound => pair ⟨room, pairFound⟩) found form room
          (ih _ (by omega) back rfl)

/-- The check of the whole buffer accepts what is legal before `stop` by itself. -/
theorem passesFrom_iff (le : stop ≤ buffer.length) :
    PassesFrom legacy buffer stop position ↔
      IsConcatenation legacy ((buffer.take stop).drop position) :=
  ⟨PassesFrom.isConcatenation, IsConcatenation.passesFrom le⟩

/-- Verdict, measure and rendering depend on nothing behind the length, and the verdict is that of
`PassesFrom`. -/
theorem results_eq_of_take_eq (legacy : Bool) {a b : Bytes} {n : Nat} (le : n ≤ a.length)
    (le' : n ≤ b.length) (same : a.take n = b.take n) :
    (∃ verdict, isLegalWithin a (.int n) legacy = .ok verdict ∧
      isLegalWithin b (.int n) legacy = .ok verdict ∧
      (verdict = true ↔ PassesFrom legacy a n 0) ∧ (verdict = true ↔ PassesFrom legacy b n 0)) ∧
    (∃ m, measure a (.int n) = .ok m ∧ measure b (.int n) = .ok m) ∧
    ∃ text, Quoted.ofBytes a (.int n) = .ok text ∧ Quoted.ofBytes b (.int n) = .ok text ∧
      Quoted.bytesLength a (.int n) = .ok text.length ∧
      Quoted.bytesLength b (.int n) = .ok text.length := by
  have whole := Quoted.isRenderingOfBytes (Size.lengthOf_natCast le)
  have whole' := Quoted.isRenderingOfBytes (Size.lengthOf_natCast le')
  rw [← same] at whole'
  refine ⟨⟨_, isLegalWithin_natCast le legacy, ?_, ?_, ?_⟩, ⟨_, measure_natCast le, ?_⟩,
    ⟨_, whole.ofBytes_eq, whole'.ofBytes_eq, whole.bytesLength_eq, whole'.bytesLength_eq⟩⟩
  · rw [isLegalWithin_natCast le', same]
  · rw [passesFrom_iff le, List.drop_zero, isLegal_iff]
  · rw [passesFrom_iff le', List.drop_zero, same, isLegal_iff]
  · rw [measure_natCast le', same]

/-- A length through a pair, whose rest one of two buffers has. -/
theorem results_eq_of_take_eq_of_cut_pair :
    5 ≤ ([0xED, 0xA0, 0xBD, 0xED, 0xB8, 0x80] : Bytes).length ∧
    5 ≤ ([0xED, 0xA0, 0xBD, 0xED, 0xB8, 0x00, 0x61] : Bytes).length ∧
    ([0xED, 0xA0, 0xBD, 0xED, 0xB8, 0x80] : Bytes).take 5 =
      ([0xED, 0xA0, 0xBD, 0xED, 0xB8, 0x00, 0x61] : Bytes).take 5 ∧
    ¬ PassesFrom false [0xED, 0xA0, 0xBD, 0xED, 0xB8, 0x80] 5 0 ∧
    ¬ PassesFrom false [0xED, 0xA0, 0xBD, 0xED, 0xB8, 0x00, 0x61] 5 0 ∧
    measure [0xED, 0xA0, 0xBD, 0xED, 0xB8, 0x00, 0x61] (.int 5) = .ok ⟨2, false, true⟩ ∧
    Quoted.bytesLength [0xED, 0xA0, 0xBD, 0xED, 0xB8, 0x00, 0x61] (.int 5) = .ok 18 := by
  have le : 5 ≤ ([0xED, 0xA0, 0xBD, 0xED, 0xB8, 0x80] : Bytes).length := by decide
  have le' : 5 ≤ ([0xED, 0xA0, 0xBD, 0xED, 0xB8, 0x00, 0x61] : Bytes).length := by decide
  have rendered : Quoted.bytesLength [0xED, 0xA0, 0xBD, 0xED, 0xB8, 0x80] (.int 5) = .ok 18 := by
    decide
  obtain ⟨⟨verdict, answer, -, passes, passes'⟩, ⟨m, measured, measured'⟩, text, -, -, size, size'⟩ :=
    results_eq_of_take_eq false le le' rfl
  obtain rfl : verdict = false := Except.ok.inj (answer.symm.trans (by decide))
  obtain rfl : m = ⟨2, false, true⟩ := Except.ok.inj (measured.symm.trans rfl)
  exact ⟨le, le', rfl, fun run => Bool.false_ne_true (passes.2 run),
    fun run => Bool.false_ne_true (passes'.2 run), measured', (size'.trans size.symm).trans rendered⟩

/-! ## Reading up to a zero byte -/

theorem IsConcatenation.readsFrom {data : Bytes} (h : IsConcatenation legacy data) (w : Width)
    (before behind : Bytes) :
    ReadsFrom (decodeUnitAt w (before ++ (data ++ behind))) (before.length + data.length)
      before.length (scanUnits w data) := by
  induction h generalizing before with
  | nil => exact .done (Nat.le_refl _)
  | @append s rest first _ ih =>
    obtain ⟨unit, scanned⟩ := first.exists_scanUnits w
    obtain ⟨lead, tail, rfl, -⟩ := first.exists_cons
    have read : decodeUnit w lead (tail ++ (rest ++ behind)) = ⟨unit, (lead :: tail).length⟩ := by
      have head := scanned (rest ++ behind)
      rw [List.cons_append, scanUnits_cons] at head
      exact (List.cons.inj head).1
    have more := ih (before ++ lead :: tail)
    rw [List.length_append, List.append_assoc, ← List.append_assoc _ rest behind, Nat.add_assoc,
      ← List.length_append] at more
    rw [scanned]
    refine .next (by simp) ?_ more
    rw [← read]
    apply decodeUnitAt_of_drop
    rw [List.drop_left, List.append_assoc]
    rfl

/-- `measure` without a length is that with the index of the first zero byte, which the loop over
units reaches. -/
theorem measure_whole_eq_findIdx (data : Bytes) :
    let k := data.findIdx (· == 0)
    ∃ m, measure data .whole = .ok m ∧ measure data (.int k) = .ok m ∧
      ∀ legacy, isLegalWithin data (.int k) legacy = .ok true → ∀ w, ∃ items,
        ReadsFrom (decodeUnitAt w data) k 0 items ∧
        ReadsFrom (decodeUnitAt w (data.take k)) k 0 items ∧
        totalSize Decoded.size items = k ∧ items.length = m.length := by
  intro k
  have le : k ≤ data.length := List.findIdx_le_length
  have part : data.takeWhile (· != 0) = data.take k := by
    rw [List.takeWhile_eq_take_findIdx_not]
    simp [k, bne]
  refine ⟨_, congrArg Except.ok (measureTerminated_eq data), ?_, fun legacy legal w => ?_⟩
  · rw [measure_natCast le, part]
  · rw [isLegalWithin_natCast le, Except.ok.injEq, isLegal_iff] at legal
    refine ⟨scanUnits w (data.take k), ?_, readsFrom_take w le, ?_, ?_⟩
    · have run := legal.readsFrom w [] (data.drop k)
      rwa [List.nil_append, List.take_append_drop, List.length_nil, Nat.zero_add,
        List.length_take_of_le le] at run
    · rw [totalSize_scanUnits, List.length_take_of_le le]
    · rw [part, length_measureCounted, legal.startCount_eq w]

/-- An overlong form and a letter before a zero byte, and a stray continuation behind it. -/
theorem measure_whole_eq_findIdx_of_overlong :
    isLegalWithin [0xC1, 0x81, 0x41, 0x00, 0x80] (.int 3) true = .ok true ∧
    measure [0xC1, 0x81, 0x41, 0x00, 0x80] .whole = .ok ⟨2, true, true⟩ ∧
    measure [0xC1, 0x81, 0x41, 0x00, 0x80] (.int 3) = .ok ⟨2, true, true⟩ ∧
    ∃ items, ReadsFrom (decodeUnitAt .wide [0xC1, 0x81, 0x41, 0x00, 0x80]) 3 0 items ∧
      totalSize Decoded.size items = 3 ∧ items.length = 2 := by
  have legal : isLegalWithin [0xC1, 0x81, 0x41, 0x00, 0x80] (.int 3) true = .ok true := by decide
  have index : ([0xC1, 0x81, 0x41, 0x00, 0x80] : Bytes).findIdx (· == 0) = 3 := by decide
  have found := measure_whole_eq_findIdx [0xC1, 0x81, 0x41, 0x00, 0x80]
  simp only [index] at found
  obtain ⟨m, measured, measured', of_legal⟩ := found
  obtain rfl : m = ⟨2, true, true⟩ := Except.ok.inj (measured.symm.trans rfl)
  obtain ⟨items, run, -, size, steps⟩ := of_legal true legal .wide
  exact ⟨legal, measured, measured', items, run, size, steps⟩

end ModifiedUtf8
