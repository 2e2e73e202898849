import ModifiedUtf8.Proofs.Boundaries
import ModifiedUtf8.Proofs.Chunks

/-!
# Lenient decoding in chunks

What is settled stays settled: a decoder that gets more bytes passes over at least what it has
passed over already (`settledLength_append`).  The bytes kept back are therefore those behind
the settled length of all bytes so far, however these were cut.

On bytes that are not legal a settled length need not be a character boundary: a lead settles as
many bytes as it announces, although only it is read, and a second lead among them is given out
without the bytes that complete it.  A lenient run never fails, and its texts make up the text of
the whole exactly if every settled length on its way is a boundary (`feedAll_lenient_iff`).
-/

namespace ModifiedUtf8

/-! ## What is settled stays settled -/

theorem mayBeginLow_left {front back : Bytes} (h : mayBeginLow (front ++ back) = true) :
    mayBeginLow front = true := by
  match front with
  | [] => rfl
  | [b] =>
    match back with
    | [] => exact h
    | [c] => exact (Bool.and_eq_true_iff.1 h).1
    | c :: d :: back => exact (Bool.and_eq_true_iff.1 (Bool.and_eq_true_iff.1 h).1).1
  | [b, c] =>
    match back with
    | [] => exact h
    | d :: back => exact (Bool.and_eq_true_iff.1 h).1
  | b :: c :: d :: front => exact h

theorem neededSize_append {lead : UInt8} {rest : Bytes}
    (fits : neededSize lead rest ≤ rest.length + 1) (back : Bytes) :
    neededSize lead (rest ++ back) = neededSize lead rest := by
  unfold neededSize at fits ⊢
  cases waits : awaitsLow lead rest with
  | true =>
    -- The low surrogate is there in full, so that the same bytes are looked at again.
    rw [waits, if_pos rfl] at fits
    match rest, fits with
    | b1 :: b2 :: b3 :: b4 :: b5 :: more, _ =>
      have again : awaitsLow lead (b1 :: b2 :: b3 :: b4 :: b5 :: more ++ back) = true := waits
      rw [again]
  | false =>
    rw [waits] at fits
    suffices again : awaitsLow lead (rest ++ back) = false by rw [again]
    rw [Bool.eq_false_iff] at waits ⊢
    intro again
    simp only [awaitsLow, Bool.and_eq_true, beq_iff_eq] at again
    obtain ⟨⟨rfl, second⟩, low⟩ := again
    cases rest with
    | nil => exact absurd fits (by decide)
    | cons b rest =>
      cases rest with
      | nil => exact absurd fits (show ¬ 3 ≤ 2 by decide)
      | cons c more => exact waits (Bool.and_eq_true_iff.2 ⟨second, mayBeginLow_left low⟩)

/-- What is settled stays settled, and the rest is settled from there on. -/
theorem settledLength_append (front back : Bytes) : settledLength (front ++ back) =
    settledLength front + settledLength (front.drop (settledLength front) ++ back) := by
  induction size : front.length using Nat.strongRecOn generalizing front with
  | _ n ih =>
    subst size
    by_cases empty : settledLength front = 0
    · rw [empty, Nat.zero_add, List.drop_zero]
    match front, empty with
    | lead :: rest, nonempty =>
      have fits : neededSize lead rest ≤ rest.length + 1 :=
        Nat.le_of_not_lt fun lt => nonempty (settledLength_of_lt lt)
      have pos := neededSize_pos lead rest
      have same := neededSize_append fits back
      have later := ih (rest.drop (neededSize lead rest - 1)).length
        (by rw [List.length_drop, List.length_cons]; omega) _ rfl
      have behind : (lead :: rest).drop (neededSize lead rest) =
          rest.drop (neededSize lead rest - 1) := by
        conv_lhs => rw [← Nat.sub_add_cancel pos, List.drop_succ_cons]
      rw [List.cons_append, settledLength_of_le (by rw [same, List.length_append]; omega), same,
        List.drop_append_of_le_length (by omega), later, settledLength_of_le fits, ← List.drop_drop,
        behind, Nat.add_assoc]

theorem settledLength_drop (data : Bytes) : settledLength (data.drop (settledLength data)) = 0 := by
  have h := settledLength_append data []
  rw [List.append_nil, List.append_nil] at h
  omega

/-! ## Runs -/

theorem decode_lenient (data : Bytes) : decode .lenient data = .ok (textOf data) := rfl

namespace Decoder

theorem feed_lenient (pending : Bytes) (chunk : Chunk) : feed ⟨.lenient, pending⟩ chunk =
    (.ok (textOf ((pending ++ chunk.data).take (taken ⟨.lenient, pending⟩ chunk))),
      ⟨.lenient, (pending ++ chunk.data).drop (taken ⟨.lenient, pending⟩ chunk)⟩) :=
  feed_of_decode_ok ⟨.lenient, pending⟩ chunk (decode_lenient _)

/-- The first chunk settles `front` and leaves `left`, from which the other chunks go on. -/
theorem forall_settledLength_mem_boundaries_iff {pending piece front left : Bytes}
    {rest : List Bytes} (kept : settledLength pending = 0) (idle : settledLength left = 0)
    (split : pending ++ piece = front ++ left) (size : front.length = settledLength (pending ++ piece))
    (nonempty : rest ≠ []) :
    (∀ k < (piece :: rest).length, settledLength (pending ++ ((piece :: rest).take k).flatten) ∈
      boundaries (front ++ (left ++ rest.flatten))) ↔
    front.length ∈ boundaries (front ++ (left ++ rest.flatten)) ∧
      ∀ k < rest.length, settledLength (left ++ (rest.take k).flatten) ∈
        boundaries (left ++ rest.flatten) := by
  have later (k : Nat) : settledLength (pending ++ ((piece :: rest).take (k + 1)).flatten) =
      front.length + settledLength (left ++ (rest.take k).flatten) := by
    have behind : (pending ++ piece).drop (settledLength (pending ++ piece)) = left := by
      rw [← size, split, List.drop_left]
    rw [List.take_succ_cons, List.flatten_cons, ← List.append_assoc, settledLength_append, behind,
      size]
  constructor
  · intro all
    have cut : front.length ∈ boundaries (front ++ (left ++ rest.flatten)) := by
      have first := all 1 (Nat.succ_lt_succ (List.length_pos_iff.2 nonempty))
      rwa [later, List.take_zero, List.flatten_nil, List.append_nil, idle] at first
    refine ⟨cut, fun k lt => ?_⟩
    rw [← add_mem_boundaries_iff cut, ← later]
    exact all (k + 1) (Nat.succ_lt_succ lt)
  · rintro ⟨cut, others⟩ k lt
    cases k with
    | zero =>
      rw [List.take_zero, List.flatten_nil, List.append_nil, kept]
      exact zero_mem_boundaries _
    | succ k =>
      rw [later, add_mem_boundaries_iff cut]
      exact others k (Nat.lt_of_succ_lt_succ lt)

/-- A lenient run gives the text of the whole, or one with more characters. -/
theorem feedAll_lenient_of_pending {pieces : List Bytes} (nonempty : pieces ≠ []) (pending : Bytes)
    (kept : settledLength pending = 0) :
    ∃ texts : List Text,
      (feedAll ⟨.lenient, pending⟩ (Chunk.ofPieces pieces)).1 = texts.map .ok ∧
      (textOf (pending ++ pieces.flatten)).length ≤ texts.flatten.length ∧
      (texts.flatten = textOf (pending ++ pieces.flatten) ↔ ∀ k < pieces.length,
        settledLength (pending ++ (pieces.take k).flatten) ∈
          boundaries (pending ++ pieces.flatten)) := by
  fun_induction Chunk.ofPieces pieces generalizing pending with
  | case1 => exact absurd rfl nonempty
  | case2 last =>
    have all : (pending ++ last).take (taken ⟨.lenient, pending⟩ ⟨last, true⟩) = pending ++ last :=
      List.take_length
    refine ⟨[textOf (pending ++ last)], ?_, ?_, ?_⟩
    · rw [feedAll_cons, feed_lenient, all]
      rfl
    · simp
    · refine iff_of_true (by simp) fun k lt => ?_
      obtain rfl : k = 0 := by simpa using lt
      rw [List.take_zero, List.flatten_nil, List.append_nil, kept]
      exact zero_mem_boundaries _
  | case3 piece next rest ih =>
    have answer : feed ⟨.lenient, pending⟩ ⟨piece, false⟩ =
        (.ok (textOf ((pending ++ piece).take (settledLength (pending ++ piece)))),
          ⟨.lenient, (pending ++ piece).drop (settledLength (pending ++ piece))⟩) :=
      feed_lenient pending ⟨piece, false⟩
    have idle := settledLength_drop (pending ++ piece)
    have whole := List.take_append_drop (settledLength (pending ++ piece)) (pending ++ piece)
    have size := List.length_take_of_le (settledLength_le (pending ++ piece))
    generalize (pending ++ piece).take (settledLength (pending ++ piece)) = front at *
    generalize (pending ++ piece).drop (settledLength (pending ++ piece)) = left at *
    obtain ⟨texts, answers, longer, same⟩ := ih (List.cons_ne_nil _ _) left idle
    have split : pending ++ (piece :: next :: rest).flatten =
        front ++ (left ++ (next :: rest).flatten) := by
      rw [List.flatten_cons, ← List.append_assoc, ← whole, List.append_assoc]
    have joined : (textOf front :: texts).flatten = textOf front ++ texts.flatten :=
      List.flatten_cons
    refine ⟨textOf front :: texts, ?_, ?_, ?_⟩
    · rw [feedAll_cons, answer, answers, List.map_cons]
    · have shorter := length_textOf_append_le front (left ++ (next :: rest).flatten)
      rw [split, joined, List.length_append]
      omega
    · rw [split, joined, textOf_append_eq_iff longer, same,
        forall_settledLength_mem_boundaries_iff kept idle whole.symm size (List.cons_ne_nil _ _)]

/-- Lenient `feedAll` gives the text of the whole exactly if each `settledLength` is a boundary of it. -/
theorem feedAll_lenient_iff (errors : String) (lenient : errors ≠ "strict") (pieces : List Bytes)
    (nonempty : pieces ≠ []) :
    ∃ texts : List Text,
      ((start (.ofName errors)).feedAll (Chunk.ofPieces pieces)).1 = texts.map .ok ∧
      (decode (.ofName errors) pieces.flatten = .ok texts.flatten ↔ ∀ k < pieces.length,
        settledLength (pieces.take k).flatten ∈ boundaries pieces.flatten) := by
  have mode : Strictness.ofName errors = .lenient := if_neg lenient
  obtain ⟨texts, answers, -, same⟩ := feedAll_lenient_of_pending nonempty [] rfl
  simp only [List.nil_append] at same
  rw [mode]
  refine ⟨texts, answers, ?_⟩
  rw [← same, decode_lenient, Except.ok.injEq]
  exact eq_comm

/-- A stray byte, a pair cut twice and a lead without its second byte. -/
theorem feedAll_lenient_of_stray_bytes :
    "replace" ≠ "strict" ∧
    ([[0x80, 0xED, 0xA0, 0xBD], [0xED, 0xB8], [0x80, 0xC3]] : List Bytes) ≠ [] ∧
    ∃ texts : List Text,
      ((start (.ofName "replace")).feedAll
        (Chunk.ofPieces [[0x80, 0xED, 0xA0, 0xBD], [0xED, 0xB8], [0x80, 0xC3]])).1 =
          texts.map .ok ∧
      decode (.ofName "replace") [0x80, 0xED, 0xA0, 0xBD, 0xED, 0xB8, 0x80, 0xC3] =
        .ok texts.flatten := by
  refine ⟨by decide, by decide, ?_⟩
  obtain ⟨texts, answers, same⟩ := feedAll_lenient_iff "replace" (by decide)
    [[0x80, 0xED, 0xA0, 0xBD], [0xED, 0xB8], [0x80, 0xC3]] (by decide)
  exact ⟨texts, answers, same.2 (by decide)⟩

/-- Of two leads in a row both are given out, and the byte that completes the second comes too late. -/
theorem feedAll_lenient_of_two_leads :
    ((start (.ofName "replace")).feedAll (Chunk.ofPieces [[0xC3, 0xC3], [0xA9]])).1 =
      [.ok [0xC3, 0xC3], .ok [0xA9]] ∧
    decode (.ofName "replace") [0xC3, 0xC3, 0xA9] = .ok [0xC3, 0xE9] ∧
    ¬ ∀ (errors : String) (pieces : List Bytes), errors ≠ "strict" → pieces ≠ [] →
      ∃ texts : List Text,
        ((start (.ofName errors)).feedAll (Chunk.ofPieces pieces)).1 = texts.map .ok ∧
        decode (.ofName errors) pieces.flatten = .ok texts.flatten := by
  have answers : ((start (.ofName "replace")).feedAll (Chunk.ofPieces [[0xC3, 0xC3], [0xA9]])).1 =
      [.ok [0xC3, 0xC3], .ok [0xA9]] := by decide
  refine ⟨answers, by decide, fun independent => ?_⟩
  obtain ⟨texts, given, text⟩ :=
    independent "replace" [[0xC3, 0xC3], [0xA9]] (by decide) (by decide)
  rw [answers] at given
  match texts, given with
  | [first, second], given =>
    cases given
    exact absurd text (by decide)

end Decoder

end ModifiedUtf8
