import ModifiedUtf8.Edit
import ModifiedUtf8.Proofs.Rendering
import ModifiedUtf8.Proofs.Repairing

/-!
# Sessions on one buffer

An edit that is told how much of the buffer it may use never leaves a trace beyond that.  `Effect`
lists everything that it can do: it refuses and touches nothing, it writes bytes without a zero among
them and a terminator behind them, or it puts a terminator somewhere.  `run_effect` shows this edit by
edit, and `Effect.framed` what follows for a reader of the buffer.

By induction over the edits, each of a session finds a buffer of the size that the first one found,
and does no more to it (`runAll_framed`).
-/

namespace ModifiedUtf8

/-- A size that was given, or the end of the bytes to repair, does not suit the buffer. -/
def Fault.isArgument : Fault → Bool
  | lengthNotNatural | lengthTooGreat .. | noCapacity | capacityTooGreat .. | badRepairLength _
  | notTerminated => true
  | _ => false

namespace Edit

/-! ## Bounded edits -/

/-- The edit is told how much of the buffer it may use. -/
def isBounded : Edit → Bool
  | writeAllUnits .. => false
  | _ => true

def isRepair : Edit → Bool
  | repair _ => true
  | _ => false

/-- How much of the buffer the edit may use: the capacity to write in, or the length to repair. -/
def extent (edit : Edit) (buffer : Bytes) : Except Fault Nat :=
  match edit with
  | writeUnits _ _ capacity | quoteUnits _ _ capacity | quoteBytes _ _ capacity =>
    capacity.capacityOf buffer
  | repair length => length.lengthOf buffer
  | writeAllUnits .. => .ok buffer.length

/-- Everything that a bounded edit can do to a buffer. -/
inductive Effect (edit : Edit) (buffer : Bytes) : Outcome Bytes → Prop where
  | refused {fault : Fault} (argument : fault.isArgument = true) :
      Effect edit buffer (.refuse buffer fault)
  | incomparable {type : String} (repairer : edit = repair (.other type)) :
      Effect edit buffer (.refuse buffer (.notComparable type))
  | written {room : Nat} {data : Bytes} {log : List Notice} (writer : edit.isRepair = false)
      (extent : edit.extent buffer = .ok room) (fits : data.length < room)
      (le : room ≤ buffer.length) (noZero : 0 ∉ data) :
      Effect edit buffer ⟨data ++ 0 :: buffer.drop (data.length + 1), log, .ok data.length⟩
  | repaired {size stop : Nat} {log : List Notice} (repairer : edit.isRepair = true)
      (extent : edit.extent buffer = .ok size) (lt : stop < size) (le : size ≤ buffer.length) :
      Effect edit buffer ⟨buffer.set stop 0, log, .ok stop⟩

theorem isArgument_of_capacityOf {capacity : Size} {buffer : Bytes} {fault : Fault}
    (h : capacity.capacityOf buffer = .error fault) : fault.isArgument = true := by
  unfold Size.capacityOf at h
  split at h
  · split at h
    · cases h
      rfl
    · cases h
  · split at h
    · cases h
      rfl
    split at h
    · cases h
      rfl
    · cases h
  · cases h
    rfl

theorem isArgument_of_lengthOf {length : Size} {data : Bytes} {fault : Fault}
    (h : length.lengthOf data = .error fault) : fault.isArgument = true := by
  unfold Size.lengthOf at h
  split at h
  · cases h
  · split at h
    · cases h
      rfl
    split at h
    · cases h
      rfl
    · cases h
  · cases h
    rfl

theorem zero_notMem_flatMap_render (units : List CodeUnit) : 0 ∉ units.flatMap Quoted.render :=
  fun mem => absurd (Quoted.printable_of_mem_flatMap_render mem).1 (by decide)

section Writing

variable {buffer : Bytes} {capacity : Size} {room : Nat}

theorem effect_writeUnits (w : Width) (units : List Int)
    (accepted : capacity.capacityOf buffer = .ok room) :
    (writeUnits w units capacity).Effect buffer (ModifiedUtf8.writeUnits w units capacity buffer) := by
  obtain ⟨pos, le⟩ := capacityOf_bounds accepted
  have fits := totalSize_fitting_lt (encodedSize w) pos units
  rw [writeUnits_of_capacityOf accepted]
  simp only [← length_encodeStored]
  refine .written rfl accepted ?_ le (zero_notMem_encodeUnits _)
  rwa [length_encodeStored]

theorem effect_writeWithin {edit : Edit} (writer : edit.isRepair = false)
    (extent : edit.extent buffer = .ok room) (accepted : capacity.capacityOf buffer = .ok room)
    (units : List CodeUnit) : edit.Effect buffer (Quoted.writeWithin units room buffer) := by
  obtain ⟨pos, le⟩ := capacityOf_bounds accepted
  have fits := totalSize_fitting_lt Quoted.renderedSize pos units
  rw [Quoted.writeWithin_eq pos le]
  simp only [← Quoted.length_flatMap_render]
  refine .written writer extent ?_ le (zero_notMem_flatMap_render _)
  rwa [Quoted.length_flatMap_render]

end Writing

theorem run_effect {edit : Edit} (bounded : edit.isBounded = true) (buffer : Bytes) :
    edit.Effect buffer (edit.run buffer) := by
  cases edit with
  | writeAllUnits => cases bounded
  | writeUnits w units capacity =>
    simp only [run]
    cases accepted : capacity.capacityOf buffer with
    | error fault =>
      rw [ModifiedUtf8.writeUnits, accepted]
      exact .refused (isArgument_of_capacityOf accepted)
    | ok room => exact effect_writeUnits w units accepted
  | quoteUnits w units capacity =>
    simp only [run, Quoted.writeUnits]
    cases accepted : capacity.capacityOf buffer with
    | error fault => exact .refused (isArgument_of_capacityOf accepted)
    | ok room =>
      have extent : (quoteUnits w units capacity).extent buffer = .ok room := accepted
      exact effect_writeWithin rfl extent accepted _
  | quoteBytes data length capacity =>
    simp only [run, Quoted.writeBytes]
    cases accepted : capacity.capacityOf buffer with
    | error fault => exact .refused (isArgument_of_capacityOf accepted)
    | ok room =>
      cases selected : length.lengthOf data with
      | error fault => exact .refused (isArgument_of_lengthOf selected)
      | ok n =>
        have extent : (quoteBytes data length capacity).extent buffer = .ok room := accepted
        exact effect_writeWithin rfl extent accepted _
  | repair length =>
    simp only [run]
    rcases repair_cases length buffer with ⟨shown, refused⟩ | ⟨type, rfl, refused⟩ |
      ⟨size, selected, least, le, first⟩
    · rw [refused]
      exact .refused rfl
    · exact .incomparable rfl
    · rw [first]
      rcases repairFirst_cases (Nat.le_trans (by decide) least) le with
        refused | ⟨stop, log, lt, done⟩
      · rw [refused]
        exact .refused rfl
      · rw [done]
        exact .repaired rfl selected lt le

/-! ## Frames -/

/-- What an edit leaves of a buffer, as a reader of the buffer sees it. -/
structure Framed (edit : Edit) (before : Bytes) (outcome : Outcome Bytes) : Prop where
  length_eq : outcome.content.length = before.length
  /-- Only a size that does not suit is refused, or one that is no number where a repair compares it,
  and a refusal changes nothing. -/
  of_error : ∀ fault, outcome.result = .error fault →
    (fault.isArgument = true ∨ ∃ type, edit = repair (.other type) ∧ fault = .notComparable type) ∧
      outcome.content = before
  /-- A zero byte stands at the index that is returned, within what the edit may use. -/
  of_ok : ∀ r, outcome.result = .ok r →
    outcome.content[r]? = some 0 ∧ ∃ n, edit.extent before = .ok n ∧ r < n
  /-- A writer puts its first zero byte there, and leaves everything behind it as it was. -/
  of_writer : edit.isRepair = false → ∀ r, outcome.result = .ok r →
    0 ∉ outcome.content.take r ∧ outcome.content.idxOf 0 = r ∧
      ∀ i, r < i → outcome.content[i]? = before[i]?
  /-- A repair changes nothing but the byte there. -/
  of_repair : edit.isRepair = true → ∀ r, outcome.result = .ok r →
    ∀ i, i ≠ r → outcome.content[i]? = before[i]?

theorem Effect.framed {edit : Edit} {buffer : Bytes} {outcome : Outcome Bytes}
    (h : edit.Effect buffer outcome) : edit.Framed buffer outcome := by
  cases h with
  | refused argument =>
    refine ⟨rfl, fun fault e => ?_, fun r e => ?_, fun _ r e => ?_, fun _ r e => ?_⟩
    · cases e
      exact ⟨Or.inl argument, rfl⟩
    all_goals cases e
  | incomparable repairer =>
    refine ⟨rfl, fun fault e => ?_, fun r e => ?_, fun _ r e => ?_, fun _ r e => ?_⟩
    · cases e
      exact ⟨Or.inr ⟨_, repairer, rfl⟩, rfl⟩
    all_goals cases e
  | @written room data log writer extent fits le noZero =>
    refine ⟨?_, fun fault e => ?_, fun r e => ?_, fun _ r e => ?_, fun repairer => ?_⟩
    · simp only [List.length_append, List.length_cons, List.length_drop]
      omega
    · cases e
    · cases e
      exact ⟨by simp, room, extent, fits⟩
    · cases e
      refine ⟨by rwa [List.take_left], ?_, fun i lt => ?_⟩
      · rw [List.idxOf_append_of_notMem noZero, List.idxOf_cons_self, Nat.add_zero]
      · obtain ⟨j, rfl⟩ := Nat.exists_eq_add_of_lt lt
        rw [List.getElem?_append_right (Nat.le_of_lt lt), Nat.add_assoc, Nat.add_sub_cancel_left,
          List.getElem?_cons_succ, List.getElem?_drop, Nat.add_assoc, Nat.add_comm 1 j]
    · rw [writer] at repairer
      cases repairer
  | @repaired size stop log repairer extent lt le =>
    have inside : stop < buffer.length := Nat.lt_of_lt_of_le lt le
    refine ⟨List.length_set, fun fault e => ?_, fun r e => ?_, fun writer => ?_, fun _ r e => ?_⟩
    · cases e
    · cases e
      exact ⟨List.getElem?_set_self inside, size, extent, lt⟩
    · rw [repairer] at writer
      cases writer
    · cases e
      exact fun i ne => List.getElem?_set_ne ne.symm

/-! ## Sessions -/

/-- What the buffer holds before each edit of a session, and after the last one. -/
def contents (buffer : Bytes) (edits : List Edit) : List Bytes :=
  buffer :: (runAll buffer edits).map Outcome.content

/-- Each edit of `runAll` is `Framed`, on a buffer of the size of the first one. -/
theorem runAll_framed (edits : List Edit) (bounded : ∀ edit ∈ edits, edit.isBounded = true)
    (buffer : Bytes) : (runAll buffer edits).length = edits.length ∧
      ∀ (i : Nat) (edit : Edit) (outcome : Outcome Bytes), edits[i]? = some edit →
        (runAll buffer edits)[i]? = some outcome →
        ∃ before : Bytes, (contents buffer edits)[i]? = some before ∧
          before.length = buffer.length ∧ edit.Framed before outcome := by
  induction edits generalizing buffer with
  | nil => exact ⟨rfl, fun i edit outcome e => by cases e⟩
  | cons first rest ih =>
    obtain ⟨firstBounded, restBounded⟩ := List.forall_mem_cons.1 bounded
    have framed := (run_effect firstBounded buffer).framed
    obtain ⟨count, later⟩ := ih restBounded (first.run buffer).content
    refine ⟨congrArg Nat.succ count, fun i edit outcome atEdit atOutcome => ?_⟩
    cases i with
    | zero =>
      cases atEdit
      cases atOutcome
      exact ⟨buffer, rfl, rfl, framed⟩
    | succ i =>
      obtain ⟨before, held, size, frame⟩ := later i edit outcome atEdit atOutcome
      exact ⟨before, held, size.trans framed.length_eq, frame⟩

/-- A cut write, a refused rendering and a repair of what the write left behind its end. -/
theorem runAll_framed_of_refusal :
    (∀ edit ∈ [writeUnits .wide [0x61, 0, 0x20AC] (.int 6),
      quoteBytes [0xC3, 0xA9] (.int 3) .whole, repair .whole], edit.isBounded = true) ∧
    (runAll [0x7A, 0x7A, 0x7A, 0x7A, 0x7A, 0xE2, 0x82, 0x00]
      [writeUnits .wide [0x61, 0, 0x20AC] (.int 6), quoteBytes [0xC3, 0xA9] (.int 3) .whole,
        repair .whole])[2]? =
      some ⟨[0x61, 0xC0, 0x80, 0x00, 0x7A, 0x00, 0x82, 0x00], [.repaired 7 5], .ok 5⟩ ∧
    ∃ before : Bytes,
      (contents [0x7A, 0x7A, 0x7A, 0x7A, 0x7A, 0xE2, 0x82, 0x00]
        [writeUnits .wide [0x61, 0, 0x20AC] (.int 6), quoteBytes [0xC3, 0xA9] (.int 3) .whole,
          repair .whole])[2]? = some before ∧ before.length = 8 ∧
      (repair .whole).Framed before
        ⟨[0x61, 0xC0, 0x80, 0x00, 0x7A, 0x00, 0x82, 0x00], [.repaired 7 5], .ok 5⟩ := by
  have bounded : ∀ edit ∈ [writeUnits .wide [0x61, 0, 0x20AC] (.int 6),
      quoteBytes [0xC3, 0xA9] (.int 3) .whole, repair .whole], edit.isBounded = true := by decide
  exact ⟨bounded, rfl, (runAll_framed _ bounded _).2 2 _ _ rfl rfl⟩

example : contents [0x7A, 0x7A, 0x7A, 0x7A, 0x7A, 0xE2, 0x82, 0x00]
    [writeUnits .wide [0x61, 0, 0x20AC] (.int 6), quoteBytes [0xC3, 0xA9] (.int 3) .whole,
      repair .whole] =
    [[0x7A, 0x7A, 0x7A, 0x7A, 0x7A, 0xE2, 0x82, 0x00], [0x61, 0xC0, 0x80, 0x00, 0x7A, 0xE2, 0x82, 0x00],
      [0x61, 0xC0, 0x80, 0x00, 0x7A, 0xE2, 0x82, 0x00],
      [0x61, 0xC0, 0x80, 0x00, 0x7A, 0x00, 0x82, 0x00]] := by decide

end Edit

end ModifiedUtf8
