import ModifiedUtf8.Codec
import ModifiedUtf8.Proofs.RoundTrip

/-!
# Decoding in chunks

A decoder may give out what it calls settled: in any continuation to legal bytes, the settled bytes
are the sequences of some leading units, and the cut behind them does not go through a pair
(`settledLength_spec`).  By induction over the chunks, the texts of a run put together are the text
of all bytes, wherever these are cut (`feedAll_ofPieces`).  Conversely, a strict run without a
refusal has only taken legal bytes (`exists_encodeUnits_of_feedAll`).

Texts written one after another have the bytes of their concatenation (`encodeAll_eq`), so a decoder
cannot tell where they were divided.

A strict decoder is an account of the bytes that it was given: those of the texts returned and those
kept back are, in order, those of the chunks that were not refused (`feedAll_strict_conserves`).
-/

namespace ModifiedUtf8

/-! ## Settled bytes -/

theorem neededSize_pos (lead : UInt8) (rest : Bytes) : 0 < neededSize lead rest := by
  unfold neededSize
  split
  · decide
  · exact announcedSize_pos lead

theorem neededSize_le (lead : UInt8) (rest : Bytes) : neededSize lead rest ≤ 6 := by
  have := announcedSize_le lead
  unfold neededSize
  split <;> omega

theorem settledLength_of_le {lead : UInt8} {rest : Bytes}
    (h : neededSize lead rest ≤ rest.length + 1) : settledLength (lead :: rest) =
      neededSize lead rest + settledLength (rest.drop (neededSize lead rest - 1)) := by
  have pos := neededSize_pos lead rest
  have le := neededSize_le lead rest
  rw [settledLength, settledAfter, if_pos (by rw [List.length_take]; omega), settledAfter_eq]
  omega

theorem settledLength_of_lt {lead : UInt8} {rest : Bytes}
    (h : rest.length + 1 < neededSize lead rest) : settledLength (lead :: rest) = 0 := by
  have le := neededSize_le lead rest
  rw [settledLength, settledAfter, if_neg (by rw [List.length_take]; omega)]

theorem exists_encodeUnit_of_append {lead : UInt8} {rest back : Bytes} {units : List CodeUnit}
    (h : lead :: rest ++ back = encodeUnits units) (fits : announcedSize lead ≤ rest.length + 1) :
    ∃ unit others front, units = unit :: others ∧ lead :: rest = encodeUnit unit ++ front ∧
      (encodeUnit unit).length = announcedSize lead ∧ front ++ back = encodeUnits others := by
  cases units with
  | nil => cases h
  | cons unit others =>
    obtain ⟨first, tail, e, size, -⟩ := decodeUnit_encodeUnit .wide unit
    rw [encodeUnits_cons] at h
    obtain rfl : lead = first := by
      rw [e] at h
      exact (List.cons.inj h).1
    obtain ⟨front, split⟩ := List.prefix_of_prefix_length_le ⟨_, h.symm⟩ ⟨back, rfl⟩
      (size ▸ fits)
    refine ⟨unit, others, front, rfl, split.symm, size.symm, ?_⟩
    rw [← split, List.append_assoc] at h
    exact List.append_cancel_left h

theorem exists_encodeUnit_of_three {lead b c : UInt8} {rest back : Bytes} {units : List CodeUnit}
    (kind : announcedSize lead = 3) (h : lead :: b :: c :: rest ++ back = encodeUnits units) :
    ∃ unit others, units = unit :: others ∧ encodeUnit unit = [lead, b, c] ∧
      rest ++ back = encodeUnits others := by
  have fits : announcedSize lead ≤ (b :: c :: rest).length + 1 := by
    rw [kind, List.length_cons, List.length_cons]
    omega
  obtain ⟨unit, others, front, rfl, split, size, h⟩ := exists_encodeUnit_of_append h fits
  have split : [lead, b, c] ++ rest = encodeUnit unit ++ front := split
  obtain ⟨bytes, rfl⟩ := List.append_inj split (by rw [size, kind]; rfl)
  exact ⟨unit, others, rfl, bytes.symm, h⟩

theorem mayBeginLow_of_append {low : CodeUnit} (h : (CodePoint.ofUnit low).isLow = true)
    {front back rest : Bytes} (e : front ++ back = encodeUnit low ++ rest) :
    mayBeginLow front = true := by
  obtain ⟨b, c, bytes, second, last⟩ := encodeUnit_of_isLow h
  rw [bytes] at e
  match front, e with
  | [], _ => rfl
  | [b0], e =>
    cases e
    rfl
  | [b0, b1], e =>
    cases e
    simp [mayBeginLow, second]
  | b0 :: b1 :: b2 :: more, e =>
    cases e
    simp [mayBeginLow, second, last]

/-- `awaitsLow` holds of a complete high surrogate even if nothing of the low one is there. -/
theorem awaitsLow_of_append {high low : CodeUnit} (isHigh : (CodePoint.ofUnit high).isHigh = true)
    (isLow : (CodePoint.ofUnit low).isLow = true) {lead : UInt8} {rest front back others : Bytes}
    (e : lead :: rest = encodeUnit high ++ front) (e' : front ++ back = encodeUnit low ++ others) :
    awaitsLow lead rest = true := by
  obtain ⟨b, c, bytes, second, -⟩ := encodeUnit_of_isHigh isHigh
  rw [bytes] at e
  cases e
  simp [awaitsLow, second, mayBeginLow_of_append isLow e']

/-- One step of `settledLength` passes over one unit or two, and no pair goes through its end. -/
theorem exists_settled_front {lead : UInt8} {rest back : Bytes} {units : List CodeUnit}
    (h : lead :: rest ++ back = encodeUnits units) (fits : neededSize lead rest ≤ rest.length + 1) :
    ∃ first others front, units = first ++ others ∧ lead :: rest = encodeUnits first ++ front ∧
      neededSize lead rest = (encodeUnits first).length ∧ front ++ back = encodeUnits others ∧
      ¬ Text.CutsPair (first.map CodePoint.ofUnit) (others.map CodePoint.ofUnit) := by
  cases waits : awaitsLow lead rest with
  | false =>
    -- One unit is taken: were it a high surrogate before a low one, it would wait.
    have needed : neededSize lead rest = announcedSize lead := by simp [neededSize, waits]
    obtain ⟨unit, others, front, rfl, split, size, more⟩ :=
      exists_encodeUnit_of_append h (needed ▸ fits)
    refine ⟨[unit], others, front, rfl, ?_, ?_, more, ?_⟩
    · rw [split, encodeUnits_singleton]
    · rw [needed, encodeUnits_singleton, size]
    · rintro ⟨high, low, last, isHigh, head, isLow⟩
      cases last
      cases others with
      | nil => cases head
      | cons next others =>
        cases head
        rw [awaitsLow_of_append isHigh isLow split more] at waits
        cases waits
  | true =>
    -- Both halves are there, and the second one is low, so that no pair begins with it.
    have needed : neededSize lead rest = 6 := by simp [neededSize, waits]
    rw [needed] at fits ⊢
    match rest, fits with
    | b1 :: b2 :: b3 :: b4 :: b5 :: more, fits =>
      simp only [awaitsLow, mayBeginLow, List.head?_cons, Option.any_some, List.drop_succ_cons,
        List.drop_zero, Bool.and_eq_true, beq_iff_eq] at waits
      obtain ⟨⟨rfl, second⟩, ⟨rfl, fifth⟩, last⟩ := waits
      obtain ⟨high, others, rfl, bytes, h⟩ := exists_encodeUnit_of_three (by decide) h
      obtain ⟨low, others, rfl, bytes', h⟩ := exists_encodeUnit_of_three (by decide) h
      have written : encodeUnits [high, low] = [0xED, b1, b2, 0xED, b4, b5] := by
        rw [encodeUnits_cons, encodeUnits_singleton, bytes, bytes']
        rfl
      refine ⟨[high, low], others, more, rfl, ?_, ?_, h, ?_⟩
      · rw [written]
        rfl
      · rw [written]
        rfl
      · rintro ⟨c, d, atEnd, isHigh, -⟩
        cases atEnd
        obtain ⟨b, c, bytes, second', -⟩ := encodeUnit_of_isHigh isHigh
        obtain rfl : b4 = b := (List.cons.inj (List.cons.inj (bytes'.symm.trans bytes)).2).1
        rw [isHighSecond_iff] at second'
        rw [isLowSecond_iff] at fifth
        omega

/-- `settledLength` of the front of legal bytes is the end of some leading units and cuts no pair. -/
theorem settledLength_spec {front back : Bytes} {units : List CodeUnit}
    (h : front ++ back = encodeUnits units) :
    ∃ settled kept, units = settled ++ kept ∧
      front.take (settledLength front) = encodeUnits settled ∧
      ¬ Text.CutsPair (settled.map CodePoint.ofUnit) (kept.map CodePoint.ofUnit) := by
  -- Induction on the bytes at hand; what lies behind the cut is the same at every step.
  induction size : front.length using Nat.strongRecOn generalizing front units with
  | _ n ih =>
    by_cases empty : settledLength front = 0
    · refine ⟨[], units, rfl, by rw [empty, List.take_zero, encodeUnits_nil], ?_⟩
      exact Text.not_cutsPair_nil _
    match front, h, empty with
    | lead :: rest, h, nonempty =>
      have fits : neededSize lead rest ≤ rest.length + 1 :=
        Nat.le_of_not_lt fun lt => nonempty (settledLength_of_lt lt)
      have pos := neededSize_pos lead rest
      obtain ⟨first, others, more, rfl, split, needed, h, uncut⟩ := exists_settled_front h fits
      have behind : rest.drop (neededSize lead rest - 1) = more := by
        have := congrArg (List.drop (neededSize lead rest - 1 + 1)) split
        rwa [List.drop_succ_cons, Nat.sub_add_cancel pos, needed, List.drop_left, ← needed] at this
      have shorter : more.length < n := by
        rw [← size, ← behind, List.length_drop, List.length_cons]
        omega
      obtain ⟨settled, kept, rfl, taken, uncut'⟩ := ih _ shorter h rfl
      refine ⟨first ++ settled, kept, by rw [List.append_assoc], ?_, ?_⟩
      · rw [settledLength_of_le fits, behind, split, needed, List.take_length_add_append, taken,
          encodeUnits_append]
      · rw [List.map_append] at uncut ⊢
        exact Text.not_cutsPair_append uncut uncut'

/-- The chunks of bytes that come in pieces, with a mark on the last. -/
def Chunk.ofPieces : List Bytes → List Chunk
  | [] => []
  | [last] => [⟨last, true⟩]
  | piece :: next :: rest => ⟨piece, false⟩ :: ofPieces (next :: rest)

/-! ## One chunk -/

namespace Decoder

/-- The number of bytes that a decoder takes when it gets a chunk. -/
def taken (decoder : Decoder) (chunk : Chunk) : Nat :=
  if chunk.final then (decoder.pending ++ chunk.data).length
  else settledLength (decoder.pending ++ chunk.data)

theorem feed_of_decode_ok (decoder : Decoder) (chunk : Chunk) {text : Text}
    (h : decode decoder.mode ((decoder.pending ++ chunk.data).take (decoder.taken chunk)) = .ok text) :
    decoder.feed chunk = (.ok text,
      { decoder with pending := (decoder.pending ++ chunk.data).drop (decoder.taken chunk) }) := by
  unfold taken at h ⊢
  simp only [feed, decodeSettled, h, Except.map]

theorem feed_of_decode_error (decoder : Decoder) (chunk : Chunk) {fault : Fault}
    (h : decode decoder.mode ((decoder.pending ++ chunk.data).take (decoder.taken chunk)) =
      .error fault) : decoder.feed chunk = (.error fault, decoder) := by
  unfold taken at h
  simp only [feed, decodeSettled, h, Except.map]

theorem feed_of_encodeUnits (decoder : Decoder) (chunk : Chunk) {units : List CodeUnit}
    (h : (decoder.pending ++ chunk.data).take (decoder.taken chunk) = encodeUnits units) :
    decoder.feed chunk = (.ok (Text.ofUnits units),
      { decoder with pending := (decoder.pending ++ chunk.data).drop (decoder.taken chunk) }) :=
  feed_of_decode_ok decoder chunk (by rw [h, decode_encodeUnits])

theorem feed_strict_cases (pending : Bytes) (chunk : Chunk) :
    (∃ units, (pending ++ chunk.data).take (taken ⟨.strict, pending⟩ chunk) = encodeUnits units ∧
      feed ⟨.strict, pending⟩ chunk = (.ok (Text.ofUnits units),
        ⟨.strict, (pending ++ chunk.data).drop (taken ⟨.strict, pending⟩ chunk)⟩)) ∨
    ∃ bad, feed ⟨.strict, pending⟩ chunk = (.error (.illegal bad), ⟨.strict, pending⟩) := by
  cases legal : isLegal false ((pending ++ chunk.data).take (taken ⟨.strict, pending⟩ chunk)) with
  | true =>
    obtain ⟨units, e⟩ := (isLegal_strict_iff _).1 legal
    exact Or.inl ⟨units, e.symm, feed_of_encodeUnits ⟨.strict, pending⟩ chunk e.symm⟩
  | false =>
    exact Or.inr ⟨_, feed_of_decode_error ⟨.strict, pending⟩ chunk
      (decode_strict_of_not_isLegal legal)⟩

/-! ## All chunks -/

theorem feedAll_cons (decoder : Decoder) (chunk : Chunk) (rest : List Chunk) :
    (decoder.feedAll (chunk :: rest)).1 =
      (decoder.feed chunk).1 :: ((decoder.feed chunk).2.feedAll rest).1 := rfl

/-- Over legal bytes `feedAll` refuses no chunk and gives their text in pieces. -/
theorem feedAll_ofPieces (mode : Strictness) {pieces : List Bytes} (nonempty : pieces ≠ [])
    {pending : Bytes} {units : List CodeUnit} (h : pending ++ pieces.flatten = encodeUnits units) :
    ∃ texts : List Text,
      (feedAll ⟨mode, pending⟩ (Chunk.ofPieces pieces)).1 = texts.map .ok ∧
        texts.flatten = Text.ofUnits units := by
  fun_induction Chunk.ofPieces pieces generalizing pending units with
  | case1 => exact absurd rfl nonempty
  | case2 last =>
    rw [List.flatten_singleton] at h
    have all : (pending ++ last).take (taken ⟨mode, pending⟩ ⟨last, true⟩) = encodeUnits units := by
      rw [← h]
      exact List.take_length
    refine ⟨[Text.ofUnits units], ?_, List.flatten_singleton⟩
    rw [feedAll_cons, feed_of_encodeUnits _ _ all]
    rfl
  | case3 piece next rest ih =>
    rw [List.flatten_cons, ← List.append_assoc] at h
    obtain ⟨settled, kept, rfl, front, uncut⟩ := settledLength_spec h
    have behind : (pending ++ piece).drop (settledLength (pending ++ piece)) ++
        (next :: rest).flatten = encodeUnits kept := by
      rw [← List.take_append_drop (settledLength (pending ++ piece)) (pending ++ piece), front,
        encodeUnits_append, List.append_assoc] at h
      exact List.append_cancel_left h
    obtain ⟨texts, answers, text⟩ := ih (List.cons_ne_nil _ _) behind
    refine ⟨Text.ofUnits settled :: texts, ?_, ?_⟩
    · rw [feedAll_cons, feed_of_encodeUnits ⟨mode, pending⟩ ⟨piece, false⟩ front, List.map_cons,
        ← answers]
      rfl
    · rw [List.flatten_cons, text, Text.ofUnits_append uncut]

theorem exists_encodeUnits_of_feedAll {pieces : List Bytes} (nonempty : pieces ≠ [])
    {pending : Bytes}
    (h : ∀ bad, .error (.illegal bad) ∉ (feedAll ⟨.strict, pending⟩ (Chunk.ofPieces pieces)).1) :
    ∃ units, pending ++ pieces.flatten = encodeUnits units := by
  fun_induction Chunk.ofPieces pieces generalizing pending with
  | case1 => exact absurd rfl nonempty
  | case2 last =>
    rcases feed_strict_cases pending ⟨last, true⟩ with ⟨units, e, -⟩ | ⟨bad, e⟩
    · refine ⟨units, ?_⟩
      rw [List.flatten_singleton, ← e]
      exact List.take_length.symm
    · refine absurd ?_ (h bad)
      rw [feedAll_cons, e]
      exact List.mem_cons_self
  | case3 piece next rest ih =>
    rcases feed_strict_cases pending ⟨piece, false⟩ with ⟨units, e, answer⟩ | ⟨bad, answer⟩
    · rw [feedAll_cons, answer] at h
      obtain ⟨others, e'⟩ := ih (List.cons_ne_nil _ _) fun bad mem => h bad (List.mem_cons_of_mem _ mem)
      refine ⟨units ++ others, ?_⟩
      rw [encodeUnits_append, ← e, ← e', List.flatten_cons, ← List.append_assoc, ← List.append_assoc,
        List.take_append_drop]
    · refine absurd ?_ (h bad)
      rw [feedAll_cons, answer]
      exact List.mem_cons_self

/-- Strict `feedAll` over any pieces gives the text of the whole if that is legal, and a refusal
otherwise. -/
theorem feedAll_strict_of_pieces (pieces : List Bytes) (nonempty : pieces ≠ []) :
    (isLegalWithin pieces.flatten .whole false = .ok true → ∀ errors : String,
      ∃ texts : List Text,
        ((start (.ofName errors)).feedAll (Chunk.ofPieces pieces)).1 = texts.map .ok ∧
          decode .strict pieces.flatten = .ok texts.flatten) ∧
    (isLegalWithin pieces.flatten .whole false ≠ .ok true →
      ∃ bad, .error (.illegal bad) ∈ ((start .strict).feedAll (Chunk.ofPieces pieces)).1) := by
  rw [isLegalWithin_whole, ne_eq, Except.ok.injEq]
  constructor
  · intro legal errors
    obtain ⟨units, e⟩ := (isLegal_strict_iff _).1 legal
    obtain ⟨texts, answers, text⟩ :=
      feedAll_ofPieces (.ofName errors) nonempty ((List.nil_append _).trans e.symm)
    refine ⟨texts, answers, ?_⟩
    rw [← e, decode_encodeUnits, text]
  · intro illegal
    by_contra none
    obtain ⟨units, e⟩ := exists_encodeUnits_of_feedAll nonempty fun bad mem => none ⟨bad, mem⟩
    exact illegal ((isLegal_strict_iff _).2 ⟨units, e.symm⟩)

/-- A pair in four pieces, one of them empty, and half a pair in two. -/
theorem feedAll_strict_of_cut_pairs :
    ([[0xED], [0xA0, 0xBD, 0xED], [], [0xB8, 0x80]] : List Bytes) ≠ [] ∧
    (∃ texts : List Text, ((start (.ofName "strict")).feedAll
        (Chunk.ofPieces [[0xED], [0xA0, 0xBD, 0xED], [], [0xB8, 0x80]])).1 = texts.map .ok ∧
      decode .strict [0xED, 0xA0, 0xBD, 0xED, 0xB8, 0x80] = .ok texts.flatten) ∧
    ∃ bad, .error (.illegal bad) ∈
      ((start .strict).feedAll (Chunk.ofPieces [[0xED, 0xA0, 0xBD, 0xED], [0xB8]])).1 :=
  ⟨by decide, (feedAll_strict_of_pieces _ (by decide)).1 rfl "strict",
    (feedAll_strict_of_pieces _ (by decide)).2 (by decide)⟩

end Decoder

/-! ## Texts written one after another -/

/-- `encodeAll` keeps nothing between texts, even where one ends with half a pair. -/
theorem encodeAll_eq (texts : List Text) :
    encodeAll texts = .ok (encodeUnits (Text.toUnits texts.flatten)) := by
  induction texts with
  | nil => rfl
  | cons text rest ih =>
    simp only [encodeAll, encode_eq, ih, Except.map]
    rw [List.flatten_cons, Text.toUnits_append, encodeUnits_append]

/-- `encodeAll` writes what `encode` does of the concatenation, and strict `feedAll` reads it back
from any pieces. -/
theorem Decoder.feedAll_encodeAll (texts : List Text) :
    ∃ data, encodeAll texts = .ok data ∧ encode texts.flatten = .ok data ∧
      ∀ pieces : List Bytes, pieces ≠ [] → pieces.flatten = data →
        ∃ answers : List Text,
          ((start .strict).feedAll (Chunk.ofPieces pieces)).1 = answers.map .ok ∧
            answers.flatten = Text.ofUnits (Text.toUnits texts.flatten) := by
  refine ⟨_, encodeAll_eq texts, encode_eq _, fun pieces nonempty whole => ?_⟩
  apply feedAll_ofPieces .strict nonempty
  rw [List.nil_append, whole]

/-- The halves of a pair, written as two texts and read in three pieces. -/
theorem Decoder.feedAll_encodeAll_of_halves :
    encodeAll [[0xD83D], [0xDE00]] = .ok [0xED, 0xA0, 0xBD, 0xED, 0xB8, 0x80] ∧
    encode [0xD83D, 0xDE00] = .ok [0xED, 0xA0, 0xBD, 0xED, 0xB8, 0x80] ∧
    ([[0xED, 0xA0], [0xBD, 0xED, 0xB8], [0x80]] : List Bytes) ≠ [] ∧
    ∃ answers : List Text, ((start .strict).feedAll
        (Chunk.ofPieces [[0xED, 0xA0], [0xBD, 0xED, 0xB8], [0x80]])).1 = answers.map .ok ∧
      answers.flatten = [0x1F600] := by
  have nonempty : ([[0xED, 0xA0], [0xBD, 0xED, 0xB8], [0x80]] : List Bytes) ≠ [] := by decide
  have written : encodeAll [[0xD83D], [0xDE00]] = .ok [0xED, 0xA0, 0xBD, 0xED, 0xB8, 0x80] := by
    decide
  obtain ⟨data, e, together, read⟩ := feedAll_encodeAll [[0xD83D], [0xDE00]]
  obtain rfl := Except.ok.inj (written.symm.trans e)
  exact ⟨written, together, nonempty, read _ nonempty rfl⟩

/-! ## No byte is lost -/

theorem length_le_settledLength_add (data : Bytes) : data.length ≤ settledLength data + 5 := by
  induction size : data.length using Nat.strongRecOn generalizing data with
  | _ n ih =>
    subst size
    cases data with
    | nil => exact Nat.zero_le _
    | cons lead rest =>
      have pos := neededSize_pos lead rest
      have le := neededSize_le lead rest
      rw [List.length_cons]
      by_cases fits : neededSize lead rest ≤ rest.length + 1
      · have later := ih (rest.drop (neededSize lead rest - 1)).length
          (by rw [List.length_drop, List.length_cons]; omega) _ rfl
        rw [List.length_drop] at later
        rw [settledLength_of_le fits]
        omega
      · omega

namespace Decoder

/-! ## Accounts of a run -/

/-- The texts that a run has returned, put together; a refusal returns none. -/
def returned (answers : List (Except Fault Text)) : Text :=
  answers.flatMap fun answer => answer.toOption.getD []

/-- The bytes of the chunks that a run has not refused. -/
def accepted (chunks : List Chunk) (answers : List (Except Fault Text)) : Bytes :=
  (chunks.zip answers).flatMap fun (chunk, answer) => if answer.isOk then chunk.data else []

section Accounts

variable (chunk : Chunk) (chunks : List Chunk) (answers : List (Except Fault Text))

@[simp] theorem returned_ok_cons (text : Text) :
    returned (.ok text :: answers) = text ++ returned answers := rfl

@[simp] theorem returned_error_cons (fault : Fault) :
    returned (.error fault :: answers) = returned answers := rfl

@[simp] theorem accepted_ok_cons (text : Text) :
    accepted (chunk :: chunks) (.ok text :: answers) = chunk.data ++ accepted chunks answers := rfl

@[simp] theorem accepted_error_cons (fault : Fault) :
    accepted (chunk :: chunks) (.error fault :: answers) = accepted chunks answers := rfl

end Accounts

/-! ## One chunk -/

/-- `feed` moves bytes from what is kept back to what is returned, or it refuses and changes nothing. -/
theorem feed_strict_conserves (pending : Bytes) (chunk : Chunk) :
    (∃ units left, feed ⟨.strict, pending⟩ chunk = (.ok (Text.ofUnits units), ⟨.strict, left⟩) ∧
      encodeUnits units ++ left = pending ++ chunk.data ∧ left.length ≤ 5 ∧
      (chunk.final = true → left = [])) ∨
    ∃ bad, feed ⟨.strict, pending⟩ chunk = (.error (.illegal bad), ⟨.strict, pending⟩) := by
  rcases feed_strict_cases pending chunk with ⟨units, front, answer⟩ | refused
  · refine Or.inl ⟨units, _, answer, ?_, ?_, ?_⟩
    · rw [← front, List.take_append_drop]
    · have most := length_le_settledLength_add (pending ++ chunk.data)
      cases last : chunk.final with
      | true => simp [taken, last]
      | false =>
        simp only [taken, last, Bool.false_eq_true, if_false, List.length_drop]
        omega
    · intro last
      rw [taken, last, if_pos rfl, List.drop_length]
  · exact Or.inr refused

/-! ## All chunks -/

theorem feedAll_cons_eq {decoder next : Decoder} {chunk : Chunk} {answer : Except Fault Text}
    (h : decoder.feed chunk = (answer, next)) (rest : List Chunk) :
    decoder.feedAll (chunk :: rest) = (answer :: (next.feedAll rest).1, (next.feedAll rest).2) := by
  rw [feedAll, h]

theorem feedAll_strict_of_pending (chunks : List Chunk) (pending : Bytes)
    (short : pending.length ≤ 5) :
    ∃ answers left, feedAll ⟨.strict, pending⟩ chunks = (answers, ⟨.strict, left⟩) ∧
      answers.length = chunks.length ∧
      (∀ fault, .error fault ∈ answers → ∃ bad, fault = .illegal bad) ∧
      encodeUnits (returned answers).toUnits ++ left = pending ++ accepted chunks answers ∧
      left.length ≤ 5 := by
  induction chunks generalizing pending with
  | nil =>
    refine ⟨[], pending, rfl, rfl, fun fault mem => absurd mem List.not_mem_nil, ?_, short⟩
    exact (List.append_nil pending).symm
  | cons chunk rest ih =>
    rcases feed_strict_conserves pending chunk with
      ⟨units, kept, answer, moved, short', -⟩ | ⟨bad, answer⟩
    · obtain ⟨answers, left, run, count, refusals, account, bound⟩ := ih kept short'
      refine ⟨.ok (Text.ofUnits units) :: answers, left, ?_, ?_, ?_, ?_, bound⟩
      · rw [feedAll_cons_eq answer, run]
      · rw [List.length_cons, List.length_cons, count]
      · intro fault mem
        exact refusals fault ((List.mem_cons.1 mem).resolve_left (by simp))
      · calc encodeUnits (returned (.ok (Text.ofUnits units) :: answers)).toUnits ++ left
            = encodeUnits units ++ (encodeUnits (returned answers).toUnits ++ left) := by
              rw [returned_ok_cons, Text.toUnits_append, Text.toUnits_ofUnits, encodeUnits_append,
                List.append_assoc]
          _ = encodeUnits units ++ kept ++ accepted rest answers := by
              rw [account, List.append_assoc]
          _ = pending ++ accepted (chunk :: rest) (.ok (Text.ofUnits units) :: answers) := by
              rw [moved, accepted_ok_cons, List.append_assoc]
    · obtain ⟨answers, left, run, count, refusals, account, bound⟩ := ih pending short
      refine ⟨.error (.illegal bad) :: answers, left, ?_, ?_, ?_, ?_, bound⟩
      · rw [feedAll_cons_eq answer, run]
      · rw [List.length_cons, List.length_cons, count]
      · intro fault mem
        rcases List.mem_cons.1 mem with e | mem
        · exact ⟨bad, Except.error.inj e⟩
        · exact refusals fault mem
      · rw [returned_error_cons, accepted_error_cons, account]

/-- After any strict `feedAll`, the `returned` text encodes to the `accepted` bytes less those kept
back, at most five. -/
theorem feedAll_strict_conserves (chunks : List Chunk) :
    ∃ answers pending given, (start .strict).feedAll chunks = (answers, ⟨.strict, pending⟩) ∧
      answers.length = chunks.length ∧
      (∀ fault, .error fault ∈ answers → ∃ bad, fault = .illegal bad) ∧
      encode (returned answers) = .ok given ∧ given ++ pending = accepted chunks answers ∧
      pending.length ≤ 5 ∧
      ∀ chunk,
        (∃ text left, feed ⟨.strict, pending⟩ chunk = (.ok text, ⟨.strict, left⟩) ∧
          (chunk.final = true → left = [])) ∨
        ∃ bad, feed ⟨.strict, pending⟩ chunk = (.error (.illegal bad), ⟨.strict, pending⟩) := by
  obtain ⟨answers, pending, run, count, refusals, account, short⟩ :=
    feedAll_strict_of_pending chunks [] (Nat.zero_le 5)
  refine ⟨answers, pending, _, run, count, refusals, encode_eq _, account, short, fun chunk => ?_⟩
  rcases feed_strict_conserves pending chunk with ⟨units, left, answer, -, -, last⟩ | refused
  · exact Or.inl ⟨_, left, answer, last⟩
  · exact Or.inr refused

end Decoder

end ModifiedUtf8
