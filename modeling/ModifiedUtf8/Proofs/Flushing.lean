import ModifiedUtf8.Proofs.Chunks
import ModifiedUtf8.Proofs.Reading

/-!
# When a reader decodes what it keeps back

A reader takes an empty block for the end of its stream, and decodes what it keeps back as it is.  A call
of size zero gets an empty block anywhere.  It flushes too early (`FlushesEarly.fill_eq`) if it wants more
characters than are ready while bytes are kept back and others are unread, and no other call does
(`flushesEarly_iff`).

On legal bytes this is the only way in which a strict reader can fail (`read_strict_cases`).  Such a
failure changes nothing.  So a strict reader never loses a byte, whatever the calls are: `owed` is
what it has not returned yet, and each call takes from its front what it returns (`readEach_owed`).
The main result is `readEach_flushes_early`.
-/

namespace ModifiedUtf8

namespace Reader

variable {reader last after : Reader} {size chars : Int}

/-! ## Early flushes -/

/-- The blocks that are not empty take a call, which wants some number of characters, from one state
to another. -/
inductive Reaches (size chars : Int) : Reader → Reader → Prop
  | refl (reader : Reader) : Reaches size chars reader reader
  | block {reader last : Reader} {d : Decoded Text} (wanting : reader.hasEnough chars = false)
      (some : reader.blockSize size ≠ 0)
      (decoded : decodeSettled reader.mode
        (reader.pending ++ reader.unread.take (reader.blockSize size)) false = .ok d)
      (later : Reaches size chars (reader.taken (reader.blockSize size) d) last) :
      Reaches size chars reader last

theorem Reaches.fill_eq (h : Reaches size chars reader last) :
    reader.fill size chars = last.fill size chars := by
  induction h with
  | refl reader => rfl
  | @block reader last d wanting some decoded later ih =>
    have block : reader.pending ++ reader.unread.take (reader.blockSize size) ≠ [] := by
      intro none
      have short := congrArg List.length (List.append_eq_nil_iff.1 none).2
      have le : reader.blockSize size ≤ reader.unread.length := by
        unfold blockSize
        split <;> omega
      rw [List.length_take, List.length_nil] at short
      omega
    rw [← ih, fill, if_neg (by simp [wanting])]
    simp only [if_neg block, beq_eq_false_iff_ne.2 some, decoded]
    rw [dif_neg some]
    rfl

/-- An empty block makes `fill` decode what is kept back as it is. -/
theorem fill_of_empty_block (chars : Int) (none : reader.blockSize size = 0) :
    reader.fill size chars =
      if reader.hasEnough chars = true ∨ reader.pending = [] then (.ok (), reader)
      else match decode reader.mode reader.pending with
        | .error fault => (.error fault, reader)
        | .ok text => (.ok (), { reader with pending := [], ready := reader.ready ++ text }) := by
  rw [fill]
  by_cases enough : reader.hasEnough chars = true
  · rw [if_pos enough, if_pos (Or.inl enough)]
  · rw [if_neg enough]
    simp only [none, List.take_zero, List.append_nil, enough, false_or, Bool.false_eq_true]
    by_cases kept : reader.pending = []
    · rw [if_pos kept, if_pos kept]
    · rw [if_neg kept, if_neg kept]
      unfold decodeSettled
      cases decoded : decode reader.mode reader.pending <;> simp [Except.map, advance, decoded]

/-- A call decodes what is kept back as the end of the stream while there are bytes in it. -/
def FlushesEarly (size chars : Int) (reader : Reader) : Prop :=
  let wanted := if chars < 0 then size else chars
  ∃ last, Reaches size wanted reader last ∧ last.hasEnough wanted = false ∧
    last.blockSize size = 0 ∧ last.pending ≠ [] ∧ last.unread ≠ []

theorem FlushesEarly.fill_eq (h : FlushesEarly size chars reader) :
    ∃ last : Reader, last.pending ≠ [] ∧ last.unread ≠ [] ∧
      reader.fill size (if chars < 0 then size else chars) =
        match decode last.mode last.pending with
        | .error fault => (.error fault, last)
        | .ok text => (.ok (), { last with pending := [], ready := last.ready ++ text }) := by
  obtain ⟨last, reached, wanting, none, kept, more⟩ := h
  refine ⟨last, kept, more, ?_⟩
  rw [reached.fill_eq, fill_of_empty_block _ none, if_neg (by simp [wanting, kept])]

theorem blockSize_zero (reader : Reader) : reader.blockSize 0 = 0 :=
  Nat.zero_min reader.unread.length

theorem reaches_zero_iff : Reaches 0 chars reader last ↔ last = reader := by
  constructor
  · intro h
    cases h with
    | refl => rfl
    | block _ some => exact absurd (blockSize_zero reader) some
  · rintro rfl
    exact .refl last

theorem hasEnough_zero_iff : reader.hasEnough (if chars < 0 then 0 else chars) = false ↔
    (reader.ready.length : Int) < chars := by
  rw [hasEnough, Bool.and_eq_false_iff, decide_eq_false_iff_not, decide_eq_false_iff_not]
  split <;> omega

theorem flushesEarly_iff : FlushesEarly size chars reader ↔
    size = 0 ∧ (reader.ready.length : Int) < chars ∧ reader.pending ≠ [] ∧ reader.unread ≠ [] := by
  constructor
  · rintro ⟨last, reached, wanting, none, kept, more⟩
    obtain rfl : size = 0 := by
      by_contra nonzero
      exact more (unread_of_blockSize_eq_zero nonzero none)
    obtain rfl := reaches_zero_iff.1 reached
    exact ⟨rfl, hasEnough_zero_iff.1 wanting, kept, more⟩
  · rintro ⟨rfl, wanting, kept, more⟩
    exact ⟨reader, .refl reader, hasEnough_zero_iff.2 wanting, blockSize_zero reader, kept, more⟩

/-! ## One call -/

/-- The bytes that are not returned yet: those of the ready characters and those not decoded. -/
def owed (reader : Reader) : Bytes := encodeUnits reader.ready.toUnits ++ reader.undecoded

theorem isLegal_undecoded (reader : Reader) :
    isLegal false reader.undecoded = isLegal false reader.owed :=
  (isLegal_encodeUnits_append false _ _).symm

theorem Holds.owed_eq {text : Text} (h : reader.Holds text) :
    reader.owed = encodeUnits text.toUnits := by
  obtain ⟨units, legal, rfl⟩ := h
  rw [owed, legal, Text.toUnits_append, Text.toUnits_ofUnits, encodeUnits_append]

theorem owed_of_flush (legal : isLegal false reader.pending = true) :
    owed { reader with pending := [], ready := reader.ready ++ textOf reader.pending } =
      reader.owed := by
  obtain ⟨units, e⟩ := (isLegal_strict_iff _).1 legal
  rw [owed, owed, undecoded, undecoded, ← e, textOf_encodeUnits, Text.toUnits_append,
    Text.toUnits_ofUnits, encodeUnits_append, List.append_assoc]
  rfl

/-- Over legal bytes `fill` keeps what is owed, or refuses what it flushes too early. -/
theorem fill_strict_cases (strict : reader.mode = .strict)
    (legal : isLegal false reader.owed = true) (size chars : Int) :
    let filled := reader.fill size (if chars < 0 then size else chars)
    (FlushesEarly size chars reader ∧ isLegal false reader.pending = false ∧
      filled = (.error (.illegal reader.pending), reader)) ∨
    ((FlushesEarly size chars reader → isLegal false reader.pending = true) ∧
      ∃ after, filled = (.ok (), after) ∧ after.owed = reader.owed) := by
  intro filled
  rw [← isLegal_undecoded] at legal
  by_cases zero : size = 0
  · subst zero
    have step : filled = _ := fill_of_empty_block _ (blockSize_zero reader)
    by_cases idle : reader.hasEnough (if chars < 0 then 0 else chars) = true ∨ reader.pending = []
    · rw [if_pos idle] at step
      refine Or.inr ⟨fun early => ?_, reader, step, rfl⟩
      obtain ⟨-, wanting, kept, -⟩ := flushesEarly_iff.1 early
      rw [hasEnough_zero_iff.2 wanting] at idle
      exact absurd idle (by simp [kept])
    · rw [if_neg idle] at step
      obtain ⟨wanting, kept⟩ := not_or.1 idle
      cases alone : isLegal false reader.pending with
      | true =>
        rw [decode_of_isLegal alone] at step
        exact Or.inr ⟨fun _ => rfl, _, step, owed_of_flush alone⟩
      | false =>
        -- Without other bytes, those kept back would be all of the legal rest.
        have more : reader.unread ≠ [] := by
          intro none
          rw [undecoded, none, List.append_nil, alone] at legal
          cases legal
        rw [strict, decode_strict_of_not_isLegal alone] at step
        refine Or.inl ⟨flushesEarly_iff.2 ⟨rfl, ?_, kept, more⟩, rfl, step⟩
        exact hasEnough_zero_iff.1 (Bool.eq_false_iff.2 wanting)
  · obtain ⟨units, e⟩ := (isLegal_strict_iff _).1 legal
    have holds : reader.Holds (reader.ready ++ Text.ofUnits units) := ⟨units, e.symm, rfl⟩
    obtain ⟨after, filled, holds', -⟩ := fill_holds zero (if chars < 0 then size else chars) holds
    refine Or.inr ⟨fun early => ?_, after, filled, holds'.owed_eq.trans holds.owed_eq.symm⟩
    exact absurd (flushesEarly_iff.1 early).1 zero

theorem mode_fill (reader : Reader) (size chars : Int) :
    (reader.fill size chars).2.mode = reader.mode := by
  fun_induction fill size chars reader with
  | case1 => rfl
  | case2 => rfl
  | case3 => rfl
  | case4 => rfl
  | case5 reader _ count data _ d decoded next _ ih => exact ih

theorem read_of_fill (h : reader.fill size (if chars < 0 then size else chars) = (.ok (), after)) :
    ∃ front last, reader.read size chars = (.ok front, last) ∧ last.mode = reader.mode ∧
      encodeUnits front.toUnits ++ last.owed = after.owed := by
  have mode := mode_fill reader size (if chars < 0 then size else chars)
  simp only [h] at mode
  simp only [read, h]
  generalize (if chars < 0 then size else chars) = wanted
  split
  · exact ⟨_, _, rfl, mode, rfl⟩
  · refine ⟨_, _, rfl, mode, ?_⟩
    rw [owed, owed, ← List.append_assoc, ← encodeUnits_append, ← Text.toUnits_append,
      List.take_append_drop]
    rfl

theorem read_strict_cases (strict : reader.mode = .strict)
    (legal : isLegal false reader.owed = true) (size chars : Int) :
    (FlushesEarly size chars reader ∧ isLegal false reader.pending = false ∧
      reader.read size chars = (.error (.illegal reader.pending), reader)) ∨
    ((FlushesEarly size chars reader → isLegal false reader.pending = true) ∧
      ∃ front after, reader.read size chars = (.ok front, after) ∧ after.mode = .strict ∧
        encodeUnits front.toUnits ++ after.owed = reader.owed) := by
  rcases fill_strict_cases strict legal size chars with
    ⟨early, alone, filled⟩ | ⟨late, middle, filled, kept⟩
  · refine Or.inl ⟨early, alone, ?_⟩
    simp only [read, filled]
  · obtain ⟨front, after, answer, mode, taken⟩ := read_of_fill filled
    exact Or.inr ⟨late, front, after, answer, mode.trans strict, taken.trans kept⟩

/-! ## All calls -/

/-- Calls take from the front of what is owed, and a refused one takes nothing. -/
theorem readEach_owed (reader : Reader) (calls : List (Int × Int)) (strict : reader.mode = .strict)
    (legal : isLegal false reader.owed = true) :
    ∃ answers last, reader.readEach calls = (answers, last) ∧ last.mode = .strict ∧
      isLegal false last.owed = true ∧
      encodeUnits (Decoder.returned answers).toUnits ++ last.owed = reader.owed := by
  induction calls generalizing reader with
  | nil => exact ⟨[], reader, rfl, strict, legal, rfl⟩
  | cons call calls ih =>
    obtain ⟨size, chars⟩ := call
    rcases read_strict_cases strict legal size chars with
      ⟨-, -, answer⟩ | ⟨-, front, after, answer, strict', taken⟩
    · obtain ⟨answers, last, run, strict', legal', moved⟩ := ih reader strict legal
      refine ⟨.error (.illegal reader.pending) :: answers, last, ?_, strict', legal', moved⟩
      rw [readEach_cons answer, run]
    · have legal' : isLegal false after.owed = true := by
        rwa [← taken, isLegal_encodeUnits_append] at legal
      obtain ⟨answers, last, run, strict', legal', moved⟩ := ih after strict' legal'
      refine ⟨.ok front :: answers, last, ?_, strict', legal', ?_⟩
      · rw [readEach_cons answer, run]
      · rw [Decoder.returned_ok_cons, Text.toUnits_append, encodeUnits_append, List.append_assoc,
          moved, taken]

/-- A call flushes early exactly if its size is zero, it wants more, and bytes are kept back and unread. -/
theorem readEach_flushes_early (data : Bytes) (legal : isLegalWithin data .whole false = .ok true)
    (calls : List (Int × Int)) (size chars : Int) :
    (∀ errors, let reader := ((start (.ofName errors) data).readEach calls).2
      FlushesEarly size chars reader ↔ size = 0 ∧ (reader.ready.length : Int) < chars ∧
        reader.pending ≠ [] ∧ reader.unread ≠ []) ∧
    ∃ answers reader given, (start .strict data).readEach calls = (answers, reader) ∧
      encode (Decoder.returned answers ++ reader.ready) = .ok given ∧
      given ++ reader.pending ++ reader.unread = data ∧
      ((FlushesEarly size chars reader ∧ isLegalWithin reader.pending .whole false = .ok false ∧
          reader.read size chars = (.error (.illegal reader.pending), reader)) ∨
        ((FlushesEarly size chars reader → isLegalWithin reader.pending .whole false = .ok true) ∧
          ∃ text after, reader.read size chars = (.ok text, after))) := by
  refine ⟨fun errors => flushesEarly_iff, ?_⟩
  simp only [isLegalWithin_whole, Except.ok.injEq] at legal ⊢
  obtain ⟨answers, reader, run, strict, legal', account⟩ :=
    readEach_owed (start .strict data) calls rfl legal
  refine ⟨answers, reader, _, run, encode_eq _, ?_, ?_⟩
  · rw [Text.toUnits_append, encodeUnits_append, List.append_assoc, List.append_assoc]
    exact account
  · rcases read_strict_cases strict legal' size chars with
      refused | ⟨late, text, after, answer, -⟩
    · exact Or.inl refused
    · exact Or.inr ⟨late, text, after, answer⟩

/-- A block cuts a character, and the next call asks for characters but for no bytes. -/
theorem readEach_flushes_early_of_cut_euro :
    isLegalWithin [0x61, 0xE2, 0x82, 0xAC] .whole false = .ok true ∧
    ∃ reader, (start .strict [0x61, 0xE2, 0x82, 0xAC]).readEach [(3, 1)] = ([.ok [0x61]], reader) ∧
      FlushesEarly 0 5 reader ∧
      reader.read 0 5 = (.error (.illegal [0xE2, 0x82]), reader) := by
  have first : (start .strict [0x61, 0xE2, 0x82, 0xAC]).readEach [(3, 1)] =
      ([.ok [0x61]], ⟨.strict, [0xAC], 3, [0xE2, 0x82], []⟩) := by decide +kernel
  obtain ⟨early, answers, reader, given, run, -, -, outcome⟩ :=
    readEach_flushes_early [0x61, 0xE2, 0x82, 0xAC] rfl [(3, 1)] 0 5
  obtain ⟨rfl, rfl⟩ := Prod.mk.inj (run.symm.trans first)
  have flush := early "strict"
  rw [show Strictness.ofName "strict" = .strict from rfl, first] at flush
  have flushes := flush.2 (by decide)
  refine ⟨rfl, _, first, flushes, ?_⟩
  rcases outcome with ⟨-, -, refused⟩ | ⟨alone, -⟩
  · exact refused
  · cases alone flushes

/-- So bytes are not always kept back up to the end of the stream. -/
theorem readEach_of_empty_block :
    (start .strict [0x61, 0xE2, 0x82, 0xAC]).readEach [(3, 1), (0, 5)] =
      ([.ok [0x61], .error (.illegal [0xE2, 0x82])], ⟨.strict, [0xAC], 3, [0xE2, 0x82], []⟩) ∧
    (¬ ∀ (data : Bytes) (calls : List (Int × Int)), isLegalWithin data .whole false = .ok true →
      ∀ fault, .error fault ∉ ((start .strict data).readEach calls).1) ∧
    ¬ ∀ (data : Bytes) (calls : List (Int × Int)) (size chars : Int),
      isLegalWithin data .whole false = .ok true →
      ¬ FlushesEarly size chars ((start .strict data).readEach calls).2 := by
  have run : (start .strict [0x61, 0xE2, 0x82, 0xAC]).readEach [(3, 1), (0, 5)] =
      ([.ok [0x61], .error (.illegal [0xE2, 0x82])], ⟨.strict, [0xAC], 3, [0xE2, 0x82], []⟩) := by
    decide +kernel
  refine ⟨run, fun answered => ?_, fun kept => ?_⟩
  · have none := answered [0x61, 0xE2, 0x82, 0xAC] [(3, 1), (0, 5)] rfl (.illegal [0xE2, 0x82])
    rw [run] at none
    exact none (by simp)
  · have first : ((start .strict [0x61, 0xE2, 0x82, 0xAC]).readEach [(3, 1)]).2 =
        ⟨.strict, [0xAC], 3, [0xE2, 0x82], []⟩ := by decide +kernel
    have late := kept [0x61, 0xE2, 0x82, 0xAC] [(3, 1)] 0 5 rfl
    rw [first] at late
    exact late (flushesEarly_iff.2 (by decide))

end Reader

end ModifiedUtf8
