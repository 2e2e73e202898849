import ModifiedUtf8.Legal
import ModifiedUtf8.Proofs.Surrogates

/-!
# One sequence

The bytes of one unit, and what a reader makes of them.  `decodeUnit_cases` says everything that
a reader can do at one place, and `encodeUnit_cases` everything that a writer can do with one unit.
From the two follow that reading undoes writing whatever comes behind (`decodeUnit_encodeUnit`), and
that the strict sequences of the grammar are those that are written (`isSequence_strict_iff`).

High surrogates are the sequences `ED Ax xx` and low ones `ED Bx xx`, on the reading side
(`isHigh_decodeUnit_iff`, `isLow_decodeUnit_iff`) and on the writing side (`encodeUnit_of_isHigh`,
`encodeUnit_of_isLow`).
-/

namespace ModifiedUtf8

/-! ## Bit fields and values -/

theorem isContinuation_iff (b : UInt8) : isContinuation b = true ↔ b.toNat / 64 = 2 := by
  simp [isContinuation]

theorem announcedSize_eq_two_iff (lead : UInt8) : announcedSize lead = 2 ↔ lead.toNat / 32 = 6 := by
  unfold announcedSize
  split
  · omega
  · split <;> omega

theorem announcedSize_eq_three_iff (lead : UInt8) :
    announcedSize lead = 3 ↔ lead.toNat / 16 = 14 := by
  unfold announcedSize
  split
  · omega
  · split <;> omega

theorem announcedSize_of_lt {lead : UInt8} (h : lead.toNat < 0x80) : announcedSize lead = 1 := by
  unfold announcedSize
  rw [if_neg (by omega), if_neg (by omega)]

theorem isContinuation_of_lt {b : UInt8} (h : b.toNat < 0x80) : isContinuation b = false := by
  rw [Bool.eq_false_iff, ne_eq, isContinuation_iff]
  omega

theorem announcedSize_of_isContinuation {b : UInt8} (h : isContinuation b = true) :
    announcedSize b = 1 := by
  rw [isContinuation_iff] at h
  unfold announcedSize
  rw [if_neg (by omega), if_neg (by omega)]

theorem twoValue_lt (lead b : UInt8) : twoValue lead b < 2048 := by
  have := tailBits_lt b
  unfold twoValue
  omega

theorem threeValue_lt (lead b c : UInt8) : threeValue lead b c < 65536 := by
  have := tailBits_lt b
  have := tailBits_lt c
  unfold threeValue
  omega

theorem toNat_store_twoValue (lead b : UInt8) :
    (Width.wide.store (twoValue lead b)).toNat = twoValue lead b :=
  Width.toNat_store_natCast (Nat.lt_trans (twoValue_lt lead b) (by decide))

theorem toNat_store_threeValue (lead b c : UInt8) :
    (Width.wide.store (threeValue lead b c)).toNat = threeValue lead b c :=
  Width.toNat_store_natCast (threeValue_lt lead b c)

/-! ## Reading one unit -/

section Reading

variable {w : Width} {lead b c : UInt8}

theorem decodeUnit_one (h : announcedSize lead = 1) (rest : Bytes) :
    decodeUnit w lead rest = ⟨lead.toUInt16, 1⟩ := by
  simp [decodeUnit, h]

theorem decodeUnit_two (kind : announcedSize lead = 2) (tail : isContinuation b = true)
    (rest : Bytes) : decodeUnit w lead (b :: rest) = ⟨w.store (twoValue lead b), 2⟩ := by
  unfold decodeUnit
  rw [kind]
  simp only [tail, if_true]

theorem decodeUnit_three (kind : announcedSize lead = 3) (tail : isContinuation b = true)
    (last : isContinuation c = true) (rest : Bytes) :
    decodeUnit w lead (b :: c :: rest) = ⟨w.store (threeValue lead b c), 3⟩ := by
  unfold decodeUnit
  rw [kind]
  simp only [tail, last, Bool.and_self, if_true]

end Reading

/-- `decodeUnit` finds a complete sequence of two or three bytes, or takes the lead alone. -/
theorem decodeUnit_cases (w : Width) (lead : UInt8) (rest : Bytes) :
    (∃ b more, rest = b :: more ∧ announcedSize lead = 2 ∧ isContinuation b = true ∧
      decodeUnit w lead rest = ⟨w.store (twoValue lead b), 2⟩) ∨
    (∃ b c more, rest = b :: c :: more ∧ announcedSize lead = 3 ∧ isContinuation b = true ∧
      isContinuation c = true ∧ decodeUnit w lead rest = ⟨w.store (threeValue lead b c), 3⟩) ∨
    decodeUnit w lead rest = ⟨lead.toUInt16, 1⟩ := by
  unfold decodeUnit
  split
  · next b more kind =>
    by_cases tail : isContinuation b = true
    · exact Or.inl ⟨b, more, rfl, kind, tail, if_pos tail⟩
    · exact Or.inr (Or.inr (if_neg tail))
  · next b c more kind =>
    by_cases tails : (isContinuation b && isContinuation c) = true
    · obtain ⟨tail, last⟩ := Bool.and_eq_true_iff.1 tails
      exact Or.inr (Or.inl ⟨b, c, more, rfl, kind, tail, last, if_pos tails⟩)
    · exact Or.inr (Or.inr (if_neg tails))
  · exact Or.inr (Or.inr rfl)

/-! ## Writing one unit -/

theorem encodeUnit_one {unit : CodeUnit} (pos : 0 < unit.toNat) (ascii : unit.toNat < 0x80) :
    encodeUnit unit = [UInt8.ofNat unit.toNat] := by
  simp only [encodeUnit]
  rw [if_pos ⟨pos, by omega⟩]

theorem encodeUnit_two {unit : CodeUnit} (h : unit.toNat = 0 ∨ 0x80 ≤ unit.toNat)
    (le : unit.toNat ≤ 0x7FF) : encodeUnit unit =
      [UInt8.ofNat (0xC0 + unit.toNat / 64), UInt8.ofNat (0x80 + unit.toNat % 64)] := by
  simp only [encodeUnit]
  rw [if_neg (by omega), if_pos le]

theorem encodeUnit_three {unit : CodeUnit} (h : 0x800 ≤ unit.toNat) : encodeUnit unit =
      [UInt8.ofNat (0xE0 + unit.toNat / 4096), UInt8.ofNat (0x80 + unit.toNat / 64 % 64),
        UInt8.ofNat (0x80 + unit.toNat % 64)] := by
  simp only [encodeUnit]
  rw [if_neg (by omega), if_neg (by omega)]

theorem encodeUnit?_toNat (unit : CodeUnit) :
    encodeUnit? (unit.toNat : Int) = .ok (encodeUnit unit) := by
  have bound := unit.toNat_lt
  rw [encodeUnit?, if_pos (by omega), Width.wide_store_toNat]

/-- A unit is written in one, two or three bytes, in the shortest form except for zero. -/
theorem encodeUnit_cases (unit : CodeUnit) :
    (∃ b, encodeUnit unit = [b] ∧ 0 < b.toNat ∧ b.toNat < 0x80 ∧ unit.toNat = b.toNat) ∨
    (∃ lead b, encodeUnit unit = [lead, b] ∧ announcedSize lead = 2 ∧ isContinuation b = true ∧
      unit.toNat = twoValue lead b ∧ (unit.toNat = 0 ∨ 0x80 ≤ unit.toNat)) ∨
    (∃ lead b c, encodeUnit unit = [lead, b, c] ∧ announcedSize lead = 3 ∧
      isContinuation b = true ∧ isContinuation c = true ∧ unit.toNat = threeValue lead b c ∧
      0x800 ≤ unit.toNat) := by
  have bound := unit.toNat_lt
  by_cases one : 0 < unit.toNat ∧ unit.toNat < 0x80
  · refine Or.inl ⟨_, encodeUnit_one one.1 one.2, ?_⟩
    rw [UInt8.toNat_ofNat', Nat.mod_eq_of_lt (by omega)]
    exact ⟨one.1, one.2, rfl⟩
  by_cases two : unit.toNat ≤ 0x7FF
  · have shortest : unit.toNat = 0 ∨ 0x80 ≤ unit.toNat := by omega
    refine Or.inr (Or.inl ⟨_, _, encodeUnit_two shortest two, ?_, ?_, ?_, shortest⟩)
    · rw [announcedSize_eq_two_iff, UInt8.toNat_ofNat']
      omega
    · rw [isContinuation_iff, UInt8.toNat_ofNat']
      omega
    · simp only [twoValue, tailBits, UInt8.toNat_ofNat']
      omega
  · refine Or.inr (Or.inr ⟨_, _, _, encodeUnit_three (by omega), ?_, ?_, ?_, ?_, by omega⟩)
    · rw [announcedSize_eq_three_iff, UInt8.toNat_ofNat']
      omega
    · rw [isContinuation_iff, UInt8.toNat_ofNat']
      omega
    · rw [isContinuation_iff, UInt8.toNat_ofNat']
      omega
    · simp only [threeValue, tailBits, UInt8.toNat_ofNat']
      omega

/-- An ASCII byte stands in no sequence but that of its own value. -/
theorem mem_encodeUnit_iff {unit : CodeUnit} {b : UInt8} (ascii : b.toNat < 0x80) :
    b ∈ encodeUnit unit ↔ 0 < b.toNat ∧ unit.toNat = b.toNat := by
  rcases encodeUnit_cases unit with ⟨a, e, pos, lt, value⟩ | ⟨lead, a, e, kind, tail, -, shortest⟩ |
    ⟨lead, a, c, e, kind, tail, last, -, shortest⟩
  · rw [e, List.mem_singleton, ← UInt8.toNat_inj]
    omega
  · rw [announcedSize_eq_two_iff] at kind
    rw [isContinuation_iff] at tail
    simp only [e, List.mem_cons, List.not_mem_nil, or_false, ← UInt8.toNat_inj]
    omega
  · rw [announcedSize_eq_three_iff] at kind
    rw [isContinuation_iff] at tail last
    simp only [e, List.mem_cons, List.not_mem_nil, or_false, ← UInt8.toNat_inj]
    omega

theorem mem_encodeUnits_iff {units : List CodeUnit} {b : UInt8} (ascii : b.toNat < 0x80) :
    b ∈ encodeUnits units ↔ 0 < b.toNat ∧ ∃ unit ∈ units, unit.toNat = b.toNat := by
  rw [encodeUnits, List.mem_flatMap]
  simp only [mem_encodeUnit_iff ascii]
  constructor
  · rintro ⟨unit, mem, pos, value⟩
    exact ⟨pos, unit, mem, value⟩
  · rintro ⟨pos, unit, mem, value⟩
    exact ⟨unit, mem, pos, value⟩

theorem zero_notMem_encodeUnits (units : List CodeUnit) : 0 ∉ encodeUnits units :=
  fun mem => absurd ((mem_encodeUnits_iff (by decide)).1 mem).1 (by decide)

theorem IsSequence.exists_encodeUnit {s : Bytes} (h : IsSequence false s) :
    ∃ unit, encodeUnit unit = s := by
  cases h with
  | @one b pos ascii =>
    refine ⟨b.toUInt16, ?_⟩
    rw [encodeUnit_one (by simpa using pos) (by simpa using ascii)]
    simp
  | @two lead b kind tail shortest =>
    have bound := twoValue_lt lead b
    have value := toNat_store_twoValue lead b
    refine ⟨Width.wide.store (twoValue lead b), ?_⟩
    rw [announcedSize_eq_two_iff] at kind
    rw [isContinuation_iff] at tail
    rw [encodeUnit_two (by simpa [value] using shortest) (by omega), value]
    simp only [List.cons.injEq, ← UInt8.toNat_inj, UInt8.toNat_ofNat', twoValue, tailBits, and_true]
    omega
  | @three lead b c kind tail last shortest =>
    have bound := threeValue_lt lead b c
    have value := toNat_store_threeValue lead b c
    refine ⟨Width.wide.store (threeValue lead b c), ?_⟩
    rw [announcedSize_eq_three_iff] at kind
    rw [isContinuation_iff] at tail last
    rw [encodeUnit_three (by simpa [value] using shortest), value]
    simp only [List.cons.injEq, ← UInt8.toNat_inj, UInt8.toNat_ofNat', threeValue, tailBits, and_true]
    omega

theorem isSequence_encodeUnit (unit : CodeUnit) : IsSequence false (encodeUnit unit) := by
  rcases encodeUnit_cases unit with ⟨b, e, pos, ascii, -⟩ | ⟨lead, b, e, kind, tail, value, shortest⟩ |
    ⟨lead, b, c, e, kind, tail, last, value, shortest⟩
  · rw [e]
    exact .one pos ascii
  · rw [e]
    exact .two kind tail (Or.inr (value ▸ shortest))
  · rw [e]
    exact .three kind tail last (Or.inr (value ▸ shortest))

theorem isSequence_strict_iff {s : Bytes} : IsSequence false s ↔ ∃ unit, encodeUnit unit = s := by
  refine ⟨IsSequence.exists_encodeUnit, ?_⟩
  rintro ⟨unit, rfl⟩
  exact isSequence_encodeUnit unit

/-! ## Reading what was written -/

/-- Whatever follows, `decodeUnit` takes the bytes of a unit and finds what its width keeps. -/
theorem decodeUnit_encodeUnit (w : Width) (unit : CodeUnit) :
    ∃ lead tail, encodeUnit unit = lead :: tail ∧
      announcedSize lead = (encodeUnit unit).length ∧ ∀ rest,
        decodeUnit w lead (tail ++ rest) = ⟨w.store unit.toNat, (encodeUnit unit).length⟩ := by
  rcases encodeUnit_cases unit with ⟨b, e, pos, ascii, value⟩ | ⟨lead, b, e, kind, tail, value, -⟩ |
    ⟨lead, b, c, e, kind, tail, last, value, -⟩
  · have kind := announcedSize_of_lt ascii
    have narrow : b.toUInt16.toNat < w.bound := by
      cases w <;> simp <;> omega
    have kept := Width.store_toNat narrow
    rw [UInt8.toNat_toUInt16, ← value] at kept
    refine ⟨b, [], e, by rw [e, kind]; rfl, fun rest => ?_⟩
    rw [decodeUnit_one kind, kept, e]
    rfl
  · refine ⟨lead, [b], e, by rw [e, kind]; rfl, fun rest => ?_⟩
    rw [List.singleton_append, decodeUnit_two kind tail, e, value]
    rfl
  · refine ⟨lead, [b, c], e, by rw [e, kind]; rfl, fun rest => ?_⟩
    rw [List.cons_append, List.singleton_append, decodeUnit_three kind tail last, e, value]
    rfl

/-! ## Surrogates -/

theorem isHighSecond_iff (b : UInt8) : isHighSecond b = true ↔ b.toNat / 16 = 10 := by
  simp [isHighSecond]

theorem isLowSecond_iff (b : UInt8) : isLowSecond b = true ↔ b.toNat / 16 = 11 := by
  simp [isLowSecond]

/-- `decodeUnit` gives a surrogate of the half `k` where `ED` and a second byte of that half stand. -/
theorem decodeUnit_surrogate_iff {k : Nat} (hk : k = 10 ∨ k = 11) (lead : UInt8) (rest : Bytes) :
    (decodeUnit .wide lead rest).value.toNat / 1024 = 44 + k ↔
      ∃ b c more, rest = b :: c :: more ∧ lead = 0xED ∧ b.toNat / 16 = k ∧
        isContinuation c = true := by
  constructor
  · intro h
    rcases decodeUnit_cases .wide lead rest with ⟨b, more, -, -, -, e⟩ |
      ⟨b, c, more, rfl, kind, tail, last, e⟩ | e
    · have bound := twoValue_lt lead b
      rw [e, toNat_store_twoValue] at h
      omega
    · rw [e, toNat_store_threeValue] at h
      rw [announcedSize_eq_three_iff] at kind
      rw [isContinuation_iff] at tail
      have hc := tailBits_lt c
      unfold threeValue at h
      unfold tailBits at h hc
      refine ⟨b, c, more, rfl, UInt8.toNat_inj.1 ?_, ?_, last⟩
      · show lead.toNat = 237
        omega
      · omega
    · have bound := lead.toNat_lt
      rw [e, UInt8.toNat_toUInt16] at h
      omega
  · rintro ⟨b, c, more, rfl, rfl, second, last⟩
    have tail : isContinuation b = true := by
      rw [isContinuation_iff]
      omega
    rw [decodeUnit_three (by decide) tail last, toNat_store_threeValue]
    have hc := tailBits_lt c
    unfold threeValue
    unfold tailBits at hc ⊢
    rw [show UInt8.toNat 0xED = 237 from rfl]
    omega

theorem isHigh_decodeUnit_iff (lead : UInt8) (rest : Bytes) :
    (CodePoint.ofUnit (decodeUnit .wide lead rest).value).isHigh = true ↔
      ∃ b c more, rest = b :: c :: more ∧ lead = 0xED ∧ isHighSecond b = true ∧
        isContinuation c = true := by
  simp only [CodePoint.isHigh_iff, CodePoint.val_ofUnit, isHighSecond_iff]
  exact decodeUnit_surrogate_iff (Or.inl rfl) lead rest

theorem isLow_decodeUnit_iff (lead : UInt8) (rest : Bytes) :
    (CodePoint.ofUnit (decodeUnit .wide lead rest).value).isLow = true ↔
      ∃ b c more, rest = b :: c :: more ∧ lead = 0xED ∧ isLowSecond b = true ∧
        isContinuation c = true := by
  simp only [CodePoint.isLow_iff, CodePoint.val_ofUnit, isLowSecond_iff]
  exact decodeUnit_surrogate_iff (Or.inr rfl) lead rest

theorem encodeUnit_surrogate {k : Nat} (hk : k = 10 ∨ k = 11) {unit : CodeUnit}
    (h : unit.toNat / 1024 = 44 + k) :
    ∃ b c, encodeUnit unit = [0xED, b, c] ∧ b.toNat / 16 = k ∧ isContinuation c = true := by
  obtain ⟨lead, tail, e, -, read⟩ := decodeUnit_encodeUnit .wide unit
  have read := read []
  rw [List.append_nil, Width.wide_store_toNat, e] at read
  obtain ⟨b, c, more, rfl, rfl, second, last⟩ :=
    (decodeUnit_surrogate_iff hk lead tail).1 (by rw [read]; exact h)
  have tail : isContinuation b = true := by
    rw [isContinuation_iff]
    omega
  rw [decodeUnit_three (by decide) tail last] at read
  obtain ⟨-, length⟩ := Decoded.mk.inj read
  obtain rfl : more = [] := List.length_eq_zero_iff.1 (by simpa using length)
  exact ⟨b, c, e, second, last⟩

theorem encodeUnit_of_isHigh {unit : CodeUnit} (h : (CodePoint.ofUnit unit).isHigh = true) :
    ∃ b c, encodeUnit unit = [0xED, b, c] ∧ isHighSecond b = true ∧ isContinuation c = true := by
  rw [CodePoint.isHigh_iff, CodePoint.val_ofUnit] at h
  simp only [isHighSecond_iff]
  exact encodeUnit_surrogate (Or.inl rfl) h

theorem encodeUnit_of_isLow {unit : CodeUnit} (h : (CodePoint.ofUnit unit).isLow = true) :
    ∃ b c, encodeUnit unit = [0xED, b, c] ∧ isLowSecond b = true ∧ isContinuation c = true := by
  rw [CodePoint.isLow_iff, CodePoint.val_ofUnit] at h
  simp only [isLowSecond_iff]
  exact encodeUnit_surrogate (Or.inr rfl) h

theorem isContinuation_of_isHighSecond {b : UInt8} (h : isHighSecond b = true) :
    isContinuation b = true := by
  rw [isHighSecond_iff] at h
  rw [isContinuation_iff]
  omega

theorem isContinuation_of_isLowSecond {b : UInt8} (h : isLowSecond b = true) :
    isContinuation b = true := by
  rw [isLowSecond_iff] at h
  rw [isContinuation_iff]
  omega

/-! ## Pairs of surrogates -/

theorem startsWithPair_iff (data : Bytes) : startsWithPair data = true ↔
    ∃ b1 b2 b4 b5 rest, data = 0xED :: b1 :: b2 :: 0xED :: b4 :: b5 :: rest ∧
      isHighSecond b1 = true ∧ isContinuation b2 = true ∧ isLowSecond b4 = true ∧
      isContinuation b5 = true := by
  constructor
  · intro h
    unfold startsWithPair at h
    split at h
    · next b0 b1 b2 b3 b4 b5 rest =>
      simp only [Bool.and_eq_true, beq_iff_eq] at h
      obtain ⟨⟨⟨⟨⟨rfl, second⟩, third⟩, rfl⟩, fifth⟩, last⟩ := h
      exact ⟨b1, b2, b4, b5, rest, rfl, second, third, fifth, last⟩
    · cases h
  · rintro ⟨b1, b2, b4, b5, rest, rfl, second, third, fifth, last⟩
    simp only [startsWithPair, second, third, fifth, last, beq_self_eq_true, Bool.and_self]

theorem pairValue_eq_ofPair {b1 b2 b4 b5 : UInt8} (second : isHighSecond b1 = true)
    (fifth : isLowSecond b4 = true) : pairValue b1 b2 b4 b5 =
      CodePoint.ofPair (CodePoint.ofUnit (Width.wide.store (threeValue 0xED b1 b2)))
        (CodePoint.ofUnit (Width.wide.store (threeValue 0xED b4 b5))) := by
  rw [isHighSecond_iff] at second
  rw [isLowSecond_iff] at fifth
  have h2 := tailBits_lt b2
  have h5 := tailBits_lt b5
  ext
  simp only [pairValue, CodePoint.ofPair, CodePoint.val_ofUnit]
  rw [toNat_store_threeValue, toNat_store_threeValue]
  unfold threeValue
  unfold tailBits at h2 h5 ⊢
  rw [show UInt8.toNat 0xED = 237 from rfl]
  omega

theorem decodeCharacter_pair {b1 b2 b4 b5 : UInt8} (second : isHighSecond b1 = true)
    (third : isContinuation b2 = true) (fifth : isLowSecond b4 = true)
    (last : isContinuation b5 = true) (rest : Bytes) :
    decodeCharacter 0xED (b1 :: b2 :: 0xED :: b4 :: b5 :: rest) = ⟨pairValue b1 b2 b4 b5, 6⟩ := by
  have pair : startsWithPair (0xED :: b1 :: b2 :: 0xED :: b4 :: b5 :: rest) = true :=
    (startsWithPair_iff _).2 ⟨b1, b2, b4, b5, rest, rfl, second, third, fifth, last⟩
  unfold decodeCharacter
  rw [pair]

theorem decodeCharacter_of_not_pair {lead : UInt8} {rest : Bytes}
    (h : startsWithPair (lead :: rest) = false) : decodeCharacter lead rest =
      ⟨CodePoint.ofUnit (decodeUnit .wide lead rest).value, (decodeUnit .wide lead rest).size⟩ := by
  simp [decodeCharacter, h]

end ModifiedUtf8
