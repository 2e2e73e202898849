import ModifiedUtf8.Codec
import ModifiedUtf8.Proofs.Chunks

/-!
# Reading a stream

A reader of legal bytes never refuses anything, and it delivers their text once and in order: what
it has returned, what is ready and the text of what it has not decoded yet make up the text of
the stream after every call (`readEach_delivers`).  This needs calls that ask for bytes.  A block of
none stands for the end of the stream, and what is kept back is decoded then.

The invariant is `Reader.Holds`.  A block keeps it since no pair goes through the cut behind settled
bytes (`decodeSettled_of_encodeUnits`), so it is kept by the blocks of a call (`fill_holds`), by a
call, which only takes the characters that it returns away from the text (`read_holds`), and by all
calls (`readEach_holds`).

For other bytes, a strict reader counts the bytes that it has decoded, all of which were legal
(`passed_readEach`).
-/

namespace ModifiedUtf8

/-! ## One block -/

/-- `decodeSettled` of the front of legal bytes gives the text of some leading units. -/
theorem decodeSettled_of_encodeUnits (mode : Strictness) {data back : Bytes} {units : List CodeUnit}
    (h : data ++ back = encodeUnits units) (final : Bool) (last : final = true → back = []) :
    ∃ settled kept size, decodeSettled mode data final = .ok ⟨Text.ofUnits settled, size⟩ ∧
      data.drop size ++ back = encodeUnits kept ∧
      Text.ofUnits units = Text.ofUnits settled ++ Text.ofUnits kept ∧
      (final = true → data.drop size = []) := by
  cases final with
  | true =>
    obtain rfl := last rfl
    rw [List.append_nil] at h
    refine ⟨units, [], data.length, ?_, ?_, (List.append_nil _).symm, fun _ => List.drop_length⟩
    · simp [decodeSettled, h, decode_encodeUnits, Except.map]
    · rw [List.drop_length]
      rfl
  | false =>
    obtain ⟨settled, kept, rfl, front, uncut⟩ := settledLength_spec h
    refine ⟨settled, kept, settledLength data, ?_, ?_, Text.ofUnits_append uncut, by simp⟩
    · simp [decodeSettled, front, decode_encodeUnits, Except.map]
    · rw [← List.take_append_drop (settledLength data) data, front, encodeUnits_append,
        List.append_assoc] at h
      exact List.append_cancel_left h

theorem exists_encodeUnits_of_decodeSettled {data : Bytes} {final : Bool} {d : Decoded Text}
    (h : decodeSettled .strict data final = .ok d) :
    ∃ units, encodeUnits units ++ data.drop d.size = data := by
  simp only [decodeSettled] at h
  generalize (if final then data.length else settledLength data) = size at h
  cases legal : isLegal false (data.take size) with
  | false =>
    rw [decode_strict_of_not_isLegal legal] at h
    cases h
  | true =>
    rw [decode_of_isLegal legal] at h
    cases h
    obtain ⟨units, front⟩ := (isLegal_strict_iff _).1 legal
    refine ⟨units, ?_⟩
    rw [front]
    exact List.take_append_drop size data

namespace Reader

/-- The bytes that are not decoded yet: those kept back and those still in the stream. -/
def undecoded (reader : Reader) : Bytes := reader.pending ++ reader.unread

/-- The ready characters and those of the bytes that are not decoded yet, which are legal, make
up a text. -/
def Holds (reader : Reader) (text : Text) : Prop :=
  ∃ units, reader.undecoded = encodeUnits units ∧ reader.ready ++ Text.ofUnits units = text

/-- The reader after a block of some bytes of which something was decoded. -/
def taken (reader : Reader) (count : Nat) (d : Decoded Text) : Reader :=
  { reader.advance count with
    pending := (reader.pending ++ reader.unread.take count).drop d.size
    ready := reader.ready ++ d.value }

variable {reader after : Reader} {size chars : Int} {text : Text}

theorem undecoded_split (reader : Reader) (count : Nat) :
    reader.pending ++ reader.unread.take count ++ reader.unread.drop count = reader.undecoded := by
  rw [List.append_assoc, List.take_append_drop, undecoded]

theorem unread_of_blockSize_eq_zero (nonzero : size ≠ 0) (h : reader.blockSize size = 0) :
    reader.unread = [] := by
  apply List.length_eq_zero_iff.1
  unfold blockSize at h
  split at h
  · exact h
  · omega

theorem undecoded_of_no_data (nonzero : size ≠ 0)
    (h : reader.pending ++ reader.unread.take (reader.blockSize size) = []) :
    reader.undecoded = [] := by
  obtain ⟨none, block⟩ := List.append_eq_nil_iff.1 h
  have rest : reader.unread = [] := by
    by_cases zero : reader.blockSize size = 0
    · exact unread_of_blockSize_eq_zero nonzero zero
    · exact (List.take_eq_nil_iff.1 block).resolve_left zero
  rw [undecoded, none, rest]
  rfl

/-! ## The blocks of a call -/

/-- A block of legal bytes keeps the text; behind an empty one nothing is left to decode. -/
theorem Holds.block (nonzero : size ≠ 0) (h : reader.Holds text) :
    ∃ d, decodeSettled reader.mode (reader.pending ++ reader.unread.take (reader.blockSize size))
        (reader.blockSize size == 0) = .ok d ∧
      (reader.taken (reader.blockSize size) d).Holds text ∧
      (reader.blockSize size = 0 → (reader.taken (reader.blockSize size) d).undecoded = []) := by
  obtain ⟨units, legal, rfl⟩ := h
  rw [← undecoded_split reader (reader.blockSize size)] at legal
  have last : (reader.blockSize size == 0) = true →
      reader.unread.drop (reader.blockSize size) = [] := by
    intro zero
    rw [unread_of_blockSize_eq_zero nonzero (beq_iff_eq.1 zero), List.drop_nil]
  obtain ⟨settled, kept, count, decoded, behind, joined, rest⟩ :=
    decodeSettled_of_encodeUnits reader.mode legal _ last
  refine ⟨_, decoded, ⟨kept, behind, ?_⟩, fun zero => ?_⟩
  · rw [joined, ← List.append_assoc]
    rfl
  · exact List.append_eq_nil_iff.2 ⟨rest (beq_iff_eq.2 zero), last (beq_iff_eq.2 zero)⟩

/-- `fill` refuses nothing and keeps the text. -/
theorem fill_holds (nonzero : size ≠ 0) (chars : Int) (h : reader.Holds text) :
    ∃ after, reader.fill size chars = (.ok (), after) ∧ after.Holds text ∧
      (chars < 0 → after.undecoded = []) := by
  fun_induction fill size chars reader with
  | case1 reader enough =>
    refine ⟨reader, rfl, h, fun lt => ?_⟩
    simp only [hasEnough, Bool.and_eq_true, decide_eq_true_eq] at enough
    omega
  | case2 reader _ count data empty =>
    exact ⟨reader, rfl, h, fun _ => undecoded_of_no_data nonzero empty⟩
  | case3 reader _ count data _ fault failed =>
    obtain ⟨d, decoded, -⟩ := h.block nonzero
    cases failed.symm.trans decoded
  | case4 reader _ count data _ d decoded next zero =>
    obtain ⟨d, decoded', holds, done⟩ := h.block nonzero
    cases decoded.symm.trans decoded'
    exact ⟨_, rfl, holds, fun _ => done zero⟩
  | case5 reader _ count data _ d decoded next _ ih =>
    obtain ⟨d, decoded', holds, -⟩ := h.block nonzero
    cases decoded.symm.trans decoded'
    exact ih holds

/-- `read` returns characters from the front of the text and keeps the rest. -/
theorem read_holds (nonzero : size ≠ 0) (chars : Int) (h : reader.Holds text) :
    ∃ front rest after, reader.read size chars = (.ok front, after) ∧ text = front ++ rest ∧
      after.Holds rest ∧ (size < 0 → chars < 0 → rest = []) := by
  obtain ⟨after, filled, ⟨units, legal, rfl⟩, done⟩ :=
    fill_holds nonzero (if chars < 0 then size else chars) h
  unfold read
  simp only [filled]
  by_cases all : (if chars < 0 then size else chars) < 0
  · obtain rfl : units = [] := encodeUnits_injective (legal.symm.trans (done all))
    rw [if_pos all]
    exact ⟨after.ready, [], _, rfl, rfl, ⟨[], legal, rfl⟩, fun _ _ => rfl⟩
  · rw [if_neg all]
    generalize (if chars < 0 then size else chars).toNat = count
    refine ⟨_, after.ready.drop count ++ Text.ofUnits units, _, rfl, ?_, ⟨units, legal, rfl⟩, ?_⟩
    · rw [← List.append_assoc, List.take_append_drop]
    · intro noSize noChars
      rw [if_pos noChars] at all
      exact absurd noSize all

/-! ## All calls -/

theorem readEach_cons {answer : Except Fault Text} (h : reader.read size chars = (answer, after))
    (rest : List (Int × Int)) : reader.readEach ((size, chars) :: rest) =
      (answer :: (after.readEach rest).1, (after.readEach rest).2) := by
  rw [readEach, h]

theorem readEach_holds {calls : List (Int × Int)} (nonzero : ∀ call ∈ calls, call.1 ≠ 0)
    (h : reader.Holds text) :
    ∃ (texts : List Text) (rest : Text) (last : Reader),
      reader.readEach calls = (texts.map .ok, last) ∧
      text = texts.flatten ++ rest ∧ last.Holds rest := by
  induction calls generalizing reader text with
  | nil => exact ⟨[], text, reader, rfl, rfl, h⟩
  | cons call calls ih =>
    obtain ⟨size, chars⟩ := call
    obtain ⟨nonzero, later⟩ := List.forall_mem_cons.1 nonzero
    obtain ⟨front, left, after, answer, rfl, holds, -⟩ := read_holds nonzero chars h
    obtain ⟨texts, rest, last, answers, rfl, holds'⟩ := ih later holds
    refine ⟨front :: texts, rest, last, ?_, ?_, holds'⟩
    · rw [readEach_cons answer, answers, List.map_cons]
    · rw [List.flatten_cons, List.append_assoc]

theorem holds_start (mode : Strictness) {data : Bytes} {units : List CodeUnit}
    (h : encodeUnits units = data) : (start mode data).Holds (Text.ofUnits units) :=
  ⟨units, h.symm, rfl⟩

theorem Holds.decode {rest : Text} (h : reader.Holds rest) : ∃ behind,
    (∀ mode, decode mode reader.undecoded = .ok behind) ∧ reader.ready ++ behind = rest := by
  obtain ⟨units, legal, joined⟩ := h
  exact ⟨_, fun mode => by rw [legal, decode_encodeUnits], joined⟩

/-! ## What a strict reader has decoded -/

/-- Everything that a strict reader has decoded on its way from one state to another was legal. -/
def Passed (before after : Reader) : Prop :=
  after.mode = .strict ∧ ∃ units, encodeUnits units ++ after.undecoded = before.undecoded

theorem Passed.refl (strict : reader.mode = .strict) : Passed reader reader := ⟨strict, [], rfl⟩

theorem Passed.trans {middle : Reader} (h : Passed reader middle) (h' : Passed middle after) :
    Passed reader after := by
  obtain ⟨-, front, e⟩ := h
  obtain ⟨strict, back, e'⟩ := h'
  refine ⟨strict, front ++ back, ?_⟩
  rw [encodeUnits_append, List.append_assoc, e', e]

theorem passed_block (strict : reader.mode = .strict) {count : Nat} {final : Bool}
    {d : Decoded Text}
    (h : decodeSettled reader.mode (reader.pending ++ reader.unread.take count) final = .ok d) :
    Passed reader (reader.taken count d) := by
  rw [strict] at h
  obtain ⟨units, legal⟩ := exists_encodeUnits_of_decodeSettled h
  refine ⟨strict, units, ?_⟩
  rw [← undecoded_split reader count]
  conv_rhs => rw [← legal, List.append_assoc]
  rfl

theorem passed_fill (strict : reader.mode = .strict)
    (h : reader.fill size chars = (.ok (), after)) : Passed reader after := by
  fun_induction fill size chars reader with
  | case1 reader _ =>
    obtain rfl := (Prod.mk.inj h).2
    exact Passed.refl strict
  | case2 reader _ count data _ =>
    obtain rfl := (Prod.mk.inj h).2
    exact Passed.refl strict
  | case3 => cases (Prod.mk.inj h).1
  | case4 reader _ count data _ d decoded next zero =>
    obtain rfl := (Prod.mk.inj h).2
    exact passed_block strict decoded
  | case5 reader _ count data _ d decoded next _ ih =>
    exact (passed_block strict decoded).trans (ih strict h)

theorem passed_read (strict : reader.mode = .strict) {front : Text}
    (h : reader.read size chars = (.ok front, after)) : Passed reader after := by
  simp only [read] at h
  generalize (if chars < 0 then size else chars) = wanted at h
  split at h
  · cases h
  · next middle filled =>
    have passed := passed_fill strict filled
    by_cases all : wanted < 0
    · rw [if_pos all] at h
      obtain rfl := (Prod.mk.inj h).2
      exact passed
    · rw [if_neg all] at h
      obtain rfl := (Prod.mk.inj h).2
      exact passed

theorem passed_readEach (strict : reader.mode = .strict) {calls : List (Int × Int)}
    {texts : List Text} (h : reader.readEach calls = (texts.map .ok, after)) :
    Passed reader after := by
  induction calls generalizing reader texts with
  | nil =>
    obtain rfl := (Prod.mk.inj h).2
    exact Passed.refl strict
  | cons call calls ih =>
    obtain ⟨size, chars⟩ := call
    cases first : reader.read size chars with
    | mk answer next =>
      rw [readEach_cons first] at h
      obtain ⟨answers, last⟩ := Prod.mk.inj h
      match texts, answers with
      | front :: texts, answers =>
        obtain ⟨rfl, answers'⟩ := List.cons.inj answers
        have passed := passed_read strict first
        exact passed.trans (ih passed.1 (Prod.ext answers' last))

/-! ## Delivery -/

/-- `readEach` over legal bytes answers every call, and a last one without limits completes the text. -/
theorem readEach_delivers (errors : String) (data : Bytes) (calls : List (Int × Int))
    (nonzero : ∀ call ∈ calls, call.1 ≠ 0) :
    (isLegalWithin data .whole false = .ok true →
      ∃ (texts : List Text) (last : Reader) (whole behind : Text),
        (start (.ofName errors) data).readEach calls = (texts.map .ok, last) ∧
        (∀ mode, decode mode data = .ok whole) ∧
        (∀ mode, decode mode (last.pending ++ last.unread) = .ok behind) ∧
        texts.flatten ++ last.ready ++ behind = whole ∧
        ∀ size chars : Int, size < 0 → chars < 0 → ∃ text after,
          last.read size chars = (.ok text, after) ∧ texts.flatten ++ text = whole) ∧
    ∀ (texts : List Text) (last : Reader),
      (start .strict data).readEach calls = (texts.map .ok, last) →
      last.unread = [] → last.pending = [] → isLegalWithin data .whole false = .ok true := by
  rw [isLegalWithin_whole, Except.ok.injEq]
  constructor
  · intro legal
    obtain ⟨units, rfl⟩ := (isLegal_strict_iff data).1 legal
    obtain ⟨texts, rest, last, answers, whole, holds⟩ :=
      readEach_holds nonzero (holds_start (.ofName errors) rfl)
    obtain ⟨behind, decoded, joined⟩ := holds.decode
    refine ⟨texts, last, Text.ofUnits units, behind, answers,
      fun mode => decode_encodeUnits mode units, decoded, ?_, ?_⟩
    · rw [whole, ← joined, List.append_assoc]
    · intro size chars noSize noChars
      obtain ⟨front, left, after, answer, e, -, none⟩ :=
        read_holds (Int.ne_of_lt noSize) chars holds
      refine ⟨front, after, answer, ?_⟩
      rw [whole, e, none noSize noChars, List.append_nil]
  · intro texts last answers atEnd none
    obtain ⟨-, units, e⟩ := passed_readEach rfl answers
    rw [undecoded, atEnd, none, List.append_nil, List.append_nil] at e
    exact (isLegal_strict_iff data).2 ⟨units, e⟩

/-- A pair that the first block cuts, read in blocks of four bytes and then without limits. -/
theorem readEach_delivers_cut_pair :
    (∀ call ∈ [((4 : Int), (1 : Int)), (-1, -1)], call.1 ≠ 0) ∧
    (∃ (texts : List Text) (last : Reader) (whole behind : Text),
      (start (.ofName "strict") [0xED, 0xA0, 0xBD, 0xED, 0xB8, 0x80]).readEach [(4, 1), (-1, -1)] =
        (texts.map .ok, last) ∧
      (∀ mode, decode mode [0xED, 0xA0, 0xBD, 0xED, 0xB8, 0x80] = .ok whole) ∧
      (∀ mode, decode mode (last.pending ++ last.unread) = .ok behind) ∧
      texts.flatten ++ last.ready ++ behind = whole) ∧
    isLegalWithin [0xED, 0xA0, 0xBD, 0xED, 0xB8, 0x80] .whole false = .ok true := by
  have nonzero : ∀ call ∈ [((4 : Int), (1 : Int)), (-1, -1)], call.1 ≠ 0 := by decide
  obtain ⟨delivers, accepts⟩ :=
    readEach_delivers "strict" [0xED, 0xA0, 0xBD, 0xED, 0xB8, 0x80] _ nonzero
  have answers : (start .strict [0xED, 0xA0, 0xBD, 0xED, 0xB8, 0x80]).readEach [(4, 1), (-1, -1)] =
      ([[0x1F600], []].map .ok, ⟨.strict, [], 6, [], []⟩) := by decide +kernel
  obtain ⟨texts, last, whole, behind, run, text, rest, joined, -⟩ := delivers rfl
  exact ⟨nonzero, ⟨texts, last, whole, behind, run, text, rest, joined⟩,
    accepts _ _ answers rfl rfl⟩

end Reader

end ModifiedUtf8
