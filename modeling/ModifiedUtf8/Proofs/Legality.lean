import ModifiedUtf8.Legal
import ModifiedUtf8.Proofs.Sequence

/-!
# Legality

The validator skips blocks of four and takes pairs at once, but decides the plain grammar: bytes
are legal exactly if they are a concatenation of sequences (`isLegal_iff`).  The strict grammar has
the encodings of lists of units (`isLegal_strict_iff`).

Both shortcuts come down to one fact: a sequence at the front changes nothing
(`isLegalAfter_append`).  For the first bytes of a buffer, however many, `isLegalWithin_iff_forms`
says the same with the sequences of the grammar in plain numbers.
-/

namespace ModifiedUtf8

variable {legacy : Bool}

/-! ## Concatenations -/

theorem IsSequence.isConcatenation {s : Bytes} (h : IsSequence legacy s) :
    IsConcatenation legacy s := by
  have := IsConcatenation.append h .nil
  rwa [List.append_nil] at this

theorem IsConcatenation.concat {s t : Bytes} (h : IsConcatenation legacy s)
    (h' : IsConcatenation legacy t) : IsConcatenation legacy (s ++ t) := by
  induction h with
  | nil => exact h'
  | append front _ ih =>
    rw [List.append_assoc]
    exact .append front ih

theorem IsSequence.of_strict {s : Bytes} (h : IsSequence false s) (legacy : Bool) :
    IsSequence legacy s := by
  cases h with
  | one pos ascii => exact .one pos ascii
  | two kind tail shortest => exact .two kind tail (Or.inr (shortest.resolve_left (by decide)))
  | three kind tail last shortest =>
    exact .three kind tail last (Or.inr (shortest.resolve_left (by decide)))

theorem isConcatenation_encodeUnits (legacy : Bool) (units : List CodeUnit) :
    IsConcatenation legacy (encodeUnits units) := by
  induction units with
  | nil => exact .nil
  | cons unit units ih => exact .append ((isSequence_encodeUnit unit).of_strict legacy) ih

/-- The strict grammar derives what lists of units are written as. -/
theorem isConcatenation_strict_iff (data : Bytes) :
    IsConcatenation false data ↔ ∃ units, encodeUnits units = data := by
  constructor
  · intro h
    induction h with
    | nil => exact ⟨[], rfl⟩
    | append front _ ih =>
      obtain ⟨unit, rfl⟩ := isSequence_strict_iff.1 front
      obtain ⟨units, rfl⟩ := ih
      exact ⟨unit :: units, rfl⟩
  · rintro ⟨units, rfl⟩
    exact isConcatenation_encodeUnits false units

/-! ## Blocks of four -/

theorem toNat_lt_of_or {x y : UInt8} (h : (x ||| y).toNat < 0x80) :
    x.toNat < 0x80 ∧ y.toNat < 0x80 := by
  rw [UInt8.toNat_or] at h
  exact ⟨Nat.lt_of_le_of_lt Nat.left_le_or h, Nat.lt_of_le_of_lt Nat.right_le_or h⟩

theorem toNat_pos_of_sub_one {b : UInt8} (h : (b - 1).toNat < 0x80) : 0 < b.toNat := by
  have bound := b.toNat_lt
  rw [UInt8.toNat_sub, UInt8.toNat_one] at h
  omega

theorem isSequence_of_isAsciiBlock (legacy : Bool) {b0 b1 b2 b3 : UInt8}
    (h : isAsciiBlock b0 b1 b2 b3 = true) :
    IsSequence legacy [b0] ∧ IsSequence legacy [b1] ∧ IsSequence legacy [b2] ∧
      IsSequence legacy [b3] := by
  unfold isAsciiBlock at h
  rw [decide_eq_true_eq, UInt8.lt_iff_toNat_lt] at h
  obtain ⟨h, p3⟩ := toNat_lt_of_or h
  obtain ⟨h, a3⟩ := toNat_lt_of_or h
  obtain ⟨h, p2⟩ := toNat_lt_of_or h
  obtain ⟨h, a2⟩ := toNat_lt_of_or h
  obtain ⟨h, p1⟩ := toNat_lt_of_or h
  obtain ⟨h, a1⟩ := toNat_lt_of_or h
  obtain ⟨a0, p0⟩ := toNat_lt_of_or h
  exact ⟨.one (toNat_pos_of_sub_one p0) a0, .one (toNat_pos_of_sub_one p1) a1,
    .one (toNat_pos_of_sub_one p2) a2, .one (toNat_pos_of_sub_one p3) a3⟩

/-! ## Sequences and pairs -/

theorem startsWithPair_of_ne {lead : UInt8} (h : lead ≠ 0xED) (rest : Bytes) :
    startsWithPair (lead :: rest) = false := by
  rw [Bool.eq_false_iff]
  intro pair
  obtain ⟨b1, b2, b4, b5, more, e, -⟩ := (startsWithPair_iff _).1 pair
  exact h (List.cons.inj e).1

theorem isLegalAfter_cons {lead : UInt8} {rest : Bytes} {size : Nat}
    (h : legalSize? legacy lead rest = some size) :
    isLegalAfter legacy 0 (lead :: rest) = isLegalAfter legacy 0 (rest.drop (size - 1)) := by
  rw [isLegalAfter, h]
  exact isLegalAfter_eq_drop legacy (size - 1) rest

theorem legalSize?_one {lead : UInt8} (pos : 0 < lead.toNat) (ascii : lead.toNat < 0x80)
    (rest : Bytes) : legalSize? legacy lead rest = some 1 := by
  unfold legalSize?
  rw [if_neg (by omega), if_pos ascii]

theorem legalSize?_two {lead b : UInt8} (kind : announcedSize lead = 2)
    (tail : isContinuation b = true)
    (shortest : legacy = true ∨ twoValue lead b = 0 ∨ 0x80 ≤ twoValue lead b) (rest : Bytes) :
    legalSize? legacy lead (b :: rest) = some 2 := by
  have h := (announcedSize_eq_two_iff lead).1 kind
  have single : lead ≠ 0xED := by
    rintro rfl
    exact absurd kind (by decide)
  unfold legalSize?
  rw [if_neg (by omega), if_neg (by omega), startsWithPair_of_ne single, kind]
  simp [tail, shortest, or_assoc]

theorem legalSize?_three {lead b c : UInt8} (kind : announcedSize lead = 3)
    (tail : isContinuation b = true) (last : isContinuation c = true)
    (shortest : legacy = true ∨ 0x800 ≤ threeValue lead b c) (rest : Bytes)
    (single : startsWithPair (lead :: b :: c :: rest) = false) :
    legalSize? legacy lead (b :: c :: rest) = some 3 := by
  have h := (announcedSize_eq_three_iff lead).1 kind
  unfold legalSize?
  rw [if_neg (by omega), if_neg (by omega), single, kind]
  simp [tail, last, shortest]

theorem legalSize?_pair {rest : Bytes} (pair : startsWithPair (0xED :: rest) = true) :
    legalSize? legacy 0xED rest = some 6 := by
  unfold legalSize?
  rw [if_neg (by decide), if_neg (by decide), if_pos pair]

theorem isSequence_halves (legacy : Bool) {b1 b2 b4 b5 : UInt8} (second : isHighSecond b1 = true)
    (third : isContinuation b2 = true) (fifth : isLowSecond b4 = true)
    (last : isContinuation b5 = true) :
    IsSequence legacy [0xED, b1, b2] ∧ IsSequence legacy [0xED, b4, b5] := by
  have h1 := (isHighSecond_iff b1).1 second
  have h4 := (isLowSecond_iff b4).1 fifth
  refine ⟨.three (by decide) (isContinuation_of_isHighSecond second) third (Or.inr ?_),
    .three (by decide) (isContinuation_of_isLowSecond fifth) last (Or.inr ?_)⟩
  all_goals
    unfold threeValue tailBits
    rw [show UInt8.toNat 0xED = 237 from rfl]
    omega

theorem legalSize?_eq_some {lead : UInt8} {rest : Bytes} {size : Nat}
    (h : legalSize? legacy lead rest = some size) :
    ∃ tail more, rest = tail ++ more ∧ size = tail.length + 1 ∧
      IsConcatenation legacy (lead :: tail) := by
  unfold legalSize? at h
  split at h
  · cases h
  next pos =>
  split at h
  · next ascii =>
    obtain rfl := Option.some.inj h
    exact ⟨[], rest, rfl, rfl, (IsSequence.one (Nat.pos_of_ne_zero pos) ascii).isConcatenation⟩
  split at h
  · next pair =>
    obtain rfl := Option.some.inj h
    obtain ⟨b1, b2, b4, b5, more, e, second, third, fifth, last⟩ := (startsWithPair_iff _).1 pair
    obtain ⟨high, low⟩ := isSequence_halves legacy second third fifth last
    cases e
    exact ⟨[b1, b2, 0xED, b4, b5], more, rfl, rfl, .append high low.isConcatenation⟩
  split at h
  · next b more kind _ =>
    simp only [Option.ite_none_right_eq_some, Option.some.injEq, Bool.and_eq_true,
      Bool.or_eq_true, beq_iff_eq, decide_eq_true_eq, or_assoc] at h
    obtain ⟨⟨tail, shortest⟩, rfl⟩ := h
    exact ⟨[b], more, rfl, rfl, (IsSequence.two kind tail shortest).isConcatenation⟩
  · next b c more kind _ =>
    simp only [Option.ite_none_right_eq_some, Option.some.injEq, Bool.and_eq_true,
      Bool.or_eq_true, decide_eq_true_eq] at h
    obtain ⟨⟨⟨tail, last⟩, shortest⟩, rfl⟩ := h
    exact ⟨[b, c], more, rfl, rfl, (IsSequence.three kind tail last shortest).isConcatenation⟩
  · cases h

/-! ## The validator decides the grammar -/

/-- A sequence at the front may be taken together with the next one, and the verdict is the same. -/
theorem isLegalAfter_append {s : Bytes} (h : IsSequence legacy s) (rest : Bytes) :
    isLegalAfter legacy 0 (s ++ rest) = isLegalAfter legacy 0 rest := by
  cases h with
  | one pos ascii => exact isLegalAfter_cons (legalSize?_one pos ascii rest)
  | two kind tail shortest => exact isLegalAfter_cons (legalSize?_two kind tail shortest rest)
  | @three lead b c kind tail last shortest =>
    cases pair : startsWithPair (lead :: b :: c :: rest) with
    | false => exact isLegalAfter_cons (legalSize?_three kind tail last shortest rest pair)
    | true =>
      obtain ⟨b1, b2, b4, b5, more, e, second, third, fifth, last⟩ := (startsWithPair_iff _).1 pair
      cases e
      have single : startsWithPair (0xED :: b4 :: b5 :: more) = false := by
        rw [Bool.eq_false_iff]
        intro again
        obtain ⟨b, _, _, _, _, e, high, -⟩ := (startsWithPair_iff _).1 again
        cases e
        rw [isHighSecond_iff] at high
        rw [isLowSecond_iff] at fifth
        omega
      obtain ⟨-, low⟩ := isSequence_halves legacy second third fifth last
      cases low with
      | three kind' tail' last' shortest' =>
        exact (isLegalAfter_cons (legalSize?_pair pair)).trans
          (isLegalAfter_cons (legalSize?_three kind' tail' last' shortest' more single)).symm

theorem isLegalAfter_dropAsciiBlocks (data : Bytes) :
    isLegalAfter legacy 0 (dropAsciiBlocks data) = isLegalAfter legacy 0 data := by
  fun_induction dropAsciiBlocks data with
  | case1 b0 b1 b2 b3 rest block ih =>
    obtain ⟨s0, s1, s2, s3⟩ := isSequence_of_isAsciiBlock legacy block
    rw [ih]
    calc isLegalAfter legacy 0 rest
        = isLegalAfter legacy 0 (b3 :: rest) := (isLegalAfter_append s3 rest).symm
      _ = isLegalAfter legacy 0 (b2 :: b3 :: rest) := (isLegalAfter_append s2 _).symm
      _ = isLegalAfter legacy 0 (b1 :: b2 :: b3 :: rest) := (isLegalAfter_append s1 _).symm
      _ = isLegalAfter legacy 0 (b0 :: b1 :: b2 :: b3 :: rest) := (isLegalAfter_append s0 _).symm
  | case2 => rfl
  | case3 => rfl

theorem isConcatenation_of_isLegalAfter {data : Bytes} (h : isLegalAfter legacy 0 data = true) :
    IsConcatenation legacy data := by
  induction e : data.length using Nat.strongRecOn generalizing data with
  | _ n ih =>
    cases data with
    | nil => exact .nil
    | cons lead rest =>
      cases found : legalSize? legacy lead rest with
      | none =>
        rw [isLegalAfter, found] at h
        cases h
      | some size =>
        obtain ⟨tail, more, rfl, rfl, front⟩ := legalSize?_eq_some found
        rw [isLegalAfter_cons found, Nat.add_sub_cancel, List.drop_left] at h
        refine front.concat (ih _ ?_ h rfl)
        rw [← e, List.length_cons, List.length_append]
        omega

/-- `isLegal` accepts the concatenations of sequences and nothing else. -/
theorem isLegal_iff (data : Bytes) : isLegal legacy data = true ↔ IsConcatenation legacy data := by
  rw [isLegal, isLegalAfter_dropAsciiBlocks]
  refine ⟨isConcatenation_of_isLegalAfter, fun h => ?_⟩
  induction h with
  | nil => rfl
  | append front _ ih => rw [isLegalAfter_append front, ih]

theorem isConcatenation_append_iff {s : Bytes} (h : IsSequence legacy s) (rest : Bytes) :
    IsConcatenation legacy (s ++ rest) ↔ IsConcatenation legacy rest := by
  rw [← isLegal_iff, ← isLegal_iff, isLegal, isLegal, isLegalAfter_dropAsciiBlocks,
    isLegalAfter_dropAsciiBlocks, isLegalAfter_append h]

theorem isLegal_strict_iff (data : Bytes) :
    isLegal false data = true ↔ ∃ units, encodeUnits units = data := by
  rw [isLegal_iff, isConcatenation_strict_iff]

theorem isLegal_encodeUnits (legacy : Bool) (units : List CodeUnit) :
    isLegal legacy (encodeUnits units) = true :=
  (isLegal_iff _).2 (isConcatenation_encodeUnits legacy units)

theorem isLegal_encodeUnits_append (legacy : Bool) (units : List CodeUnit) (rest : Bytes) :
    isLegal legacy (encodeUnits units ++ rest) = isLegal legacy rest := by
  rw [Bool.eq_iff_iff, isLegal_iff, isLegal_iff]
  induction units with
  | nil => rfl
  | cons unit units ih =>
    have first := (isSequence_encodeUnit unit).of_strict legacy
    rw [encodeUnits_cons, List.append_assoc, isConcatenation_append_iff first, ih]

/-! ## The grammar in numbers -/

/-- A continuation byte by its range. -/
def IsTail (b : UInt8) : Prop := 0x80 ≤ b.toNat ∧ b.toNat ≤ 0xBF

/-- A sequence of the grammar by the numbers of its bytes: each byte after the lead adds six bits
to the value of the lead. -/
def IsForm (legacy : Bool) : Bytes → Prop
  | [b] => 0x01 ≤ b.toNat ∧ b.toNat ≤ 0x7F
  | [lead, b] =>
    let value := (lead.toNat - 0xC0) * 0x40 + (b.toNat - 0x80)
    0xC0 ≤ lead.toNat ∧ lead.toNat ≤ 0xDF ∧ IsTail b ∧
      (legacy = true ∨ value = 0 ∨ 0x80 ≤ value)
  | [lead, b, c] =>
    let value := (lead.toNat - 0xE0) * 0x1000 + (b.toNat - 0x80) * 0x40 + (c.toNat - 0x80)
    0xE0 ≤ lead.toNat ∧ lead.toNat ≤ 0xEF ∧ IsTail b ∧ IsTail c ∧
      (legacy = true ∨ 0x800 ≤ value)
  | _ => False

theorem isContinuation_iff_isTail (b : UInt8) : isContinuation b = true ↔ IsTail b := by
  rw [isContinuation_iff, IsTail]
  omega

theorem tailBits_of_isTail {b : UInt8} (h : IsTail b) : tailBits b = b.toNat - 0x80 := by
  unfold IsTail at h
  unfold tailBits
  omega

theorem twoValue_of_range {lead b : UInt8} (ge : 0xC0 ≤ lead.toNat) (le : lead.toNat ≤ 0xDF)
    (tail : IsTail b) : twoValue lead b = (lead.toNat - 0xC0) * 0x40 + (b.toNat - 0x80) := by
  rw [twoValue, tailBits_of_isTail tail]
  omega

theorem threeValue_of_range {lead b c : UInt8} (ge : 0xE0 ≤ lead.toNat) (le : lead.toNat ≤ 0xEF)
    (tail : IsTail b) (last : IsTail c) : threeValue lead b c =
      (lead.toNat - 0xE0) * 0x1000 + (b.toNat - 0x80) * 0x40 + (c.toNat - 0x80) := by
  rw [threeValue, tailBits_of_isTail tail, tailBits_of_isTail last]
  omega

theorem isSequence_iff_isForm (s : Bytes) : IsSequence legacy s ↔ IsForm legacy s := by
  constructor
  · intro h
    cases h with
    | one pos ascii => exact ⟨pos, Nat.le_of_lt_succ ascii⟩
    | two kind tail shortest =>
      rw [announcedSize_eq_two_iff] at kind
      rw [isContinuation_iff_isTail] at tail
      rw [twoValue_of_range (by omega) (by omega) tail] at shortest
      exact ⟨by omega, by omega, tail, shortest⟩
    | three kind tail last shortest =>
      rw [announcedSize_eq_three_iff] at kind
      rw [isContinuation_iff_isTail] at tail last
      rw [threeValue_of_range (by omega) (by omega) tail last] at shortest
      exact ⟨by omega, by omega, tail, last, shortest⟩
  · intro h
    match s, h with
    | [b], ⟨pos, ascii⟩ => exact .one pos (Nat.lt_succ_of_le ascii)
    | [lead, b], ⟨ge, le, tail, shortest⟩ =>
      rw [← twoValue_of_range ge le tail] at shortest
      exact .two ((announcedSize_eq_two_iff lead).2 (by omega))
        ((isContinuation_iff_isTail b).2 tail) shortest
    | [lead, b, c], ⟨ge, le, tail, last, shortest⟩ =>
      rw [← threeValue_of_range ge le tail last] at shortest
      exact .three ((announcedSize_eq_three_iff lead).2 (by omega))
        ((isContinuation_iff_isTail b).2 tail) ((isContinuation_iff_isTail c).2 last) shortest

theorem isConcatenation_iff_flatten (data : Bytes) : IsConcatenation legacy data ↔
    ∃ forms : List Bytes, forms.flatten = data ∧ ∀ form ∈ forms, IsForm legacy form := by
  constructor
  · intro h
    induction h with
    | nil => exact ⟨[], rfl, List.forall_mem_nil _⟩
    | @append s rest front _ ih =>
      obtain ⟨forms, rfl, all⟩ := ih
      exact ⟨s :: forms, rfl, List.forall_mem_cons.2 ⟨(isSequence_iff_isForm s).1 front, all⟩⟩
  · rintro ⟨forms, rfl, all⟩
    induction forms with
    | nil => exact .nil
    | cons form forms ih =>
      obtain ⟨first, others⟩ := List.forall_mem_cons.1 all
      exact .append ((isSequence_iff_isForm form).2 first) (ih others)

/-- `isLegalWithin` accepts concatenations of one-, two- and three-byte forms, despite its blocks
and pairs. -/
theorem isLegalWithin_iff_forms {buffer : Bytes} {n : Nat} (le : n ≤ buffer.length)
    (legacy : Bool) : ∃ verdict, isLegalWithin buffer (.int n) legacy = .ok verdict ∧
      (verdict = true ↔ ∃ forms : List Bytes,
        forms.flatten = buffer.take n ∧ ∀ form ∈ forms, IsForm legacy form) := by
  refine ⟨isLegal legacy (buffer.take n), ?_, ?_⟩
  · rw [isLegalWithin, Size.lengthOf_natCast le]
    rfl
  · rw [isLegal_iff, isConcatenation_iff_flatten]

/-- A block of ASCII, a pair and an overlong form, cut off before a lone lead. -/
theorem isLegalWithin_iff_forms_of_overlong :
    12 ≤ ([0x61, 0x62, 0x63, 0x64, 0xED, 0xA0, 0xBD, 0xED, 0xB8, 0x80, 0xC1, 0x81, 0xED] :
      Bytes).length ∧
    (∃ forms : List Bytes, forms.flatten =
        [0x61, 0x62, 0x63, 0x64, 0xED, 0xA0, 0xBD, 0xED, 0xB8, 0x80, 0xC1, 0x81] ∧
      ∀ form ∈ forms, IsForm true form) ∧
    ¬ ∃ forms : List Bytes, forms.flatten =
        [0x61, 0x62, 0x63, 0x64, 0xED, 0xA0, 0xBD, 0xED, 0xB8, 0x80, 0xC1, 0x81] ∧
      ∀ form ∈ forms, IsForm false form := by
  have le : 12 ≤ ([0x61, 0x62, 0x63, 0x64, 0xED, 0xA0, 0xBD, 0xED, 0xB8, 0x80, 0xC1, 0x81, 0xED] :
      Bytes).length := by decide
  obtain ⟨accepted, answer, iff⟩ := isLegalWithin_iff_forms le true
  obtain ⟨refused, answer', iff'⟩ := isLegalWithin_iff_forms le false
  obtain rfl : accepted = true := Except.ok.inj (answer.symm.trans (by decide))
  obtain rfl : refused = false := Except.ok.inj (answer'.symm.trans (by decide))
  exact ⟨le, iff.1 rfl, fun forms => Bool.false_ne_true (iff'.2 forms)⟩

end ModifiedUtf8
