import ModifiedUtf8.Proofs.Storing

/-!
# Decoding the first bytes

A length limits the bytes that `decodeStored` counts, not those that it decodes.  Of legal bytes it
gives the units of all sequences that begin among the first bytes, the last of them with the bytes that
it misses there (`Completes.decodeStored_eq`).

So bytes behind the limit have no part in the result exactly if the limit cuts no sequence, or one that
can be completed in one way only, which is strict zero (`decodeStored_ignores_rest_iff`): any other
sequence may as well end with another continuation byte, and then holds another unit in both widths
(`IsSequence.exists_other_last`, `IsSequence.unitsOf_concat`).
-/

namespace ModifiedUtf8

variable {legacy : Bool}

/-! ## Completing the first bytes -/

/-- Continuation bytes that the last sequence among the first bytes misses. -/
structure Completes (legacy : Bool) (first missing : Bytes) : Prop where
  tails : ∀ b ∈ missing, isContinuation b = true
  legal : IsConcatenation legacy (first ++ missing)

theorem Completes.of_isSequence {front part missing : Bytes} (before : IsConcatenation legacy front)
    (found : IsSequence legacy (part ++ missing)) (nonempty : part ≠ []) :
    Completes legacy (front ++ part) missing where
  tails := found.isContinuation_of_missing nonempty
  legal := by
    rw [List.append_assoc]
    exact before.concat found.isConcatenation

theorem Completes.of_isLegal {first : Bytes} (h : isLegal legacy first = true) :
    Completes legacy first [] where
  tails := List.forall_mem_nil _
  legal := by
    rw [List.append_nil]
    exact (isLegal_iff _).1 h

theorem IsConcatenation.exists_completes {first rest : Bytes}
    (h : IsConcatenation legacy (first ++ rest)) :
    ∃ missing behind, rest = missing ++ behind ∧ Completes legacy first missing := by
  by_cases empty : first = []
  · rw [empty]
    exact ⟨[], rest, rfl, .of_isLegal rfl⟩
  · obtain ⟨front, part, missing, behind, rfl, rfl, nonempty, before, found⟩ := h.exists_part empty
    exact ⟨missing, behind, rfl, .of_isSequence before found nonempty⟩

/-! ## What is decoded -/

/-- `decodeStored` with a length takes the units of the completed bytes. -/
theorem Completes.decodeStored_eq {first missing : Bytes} (h : Completes legacy first missing)
    (behind : Bytes) (width : Option Width) :
    let w := width.getD (measureCounted first).width
    decodeStored (first ++ (missing ++ behind)) (.int first.length) width =
      .ok ⟨w, (unitsOf w (first ++ missing)).map fun unit => (unit.toNat : Int)⟩ := by
  intro w
  have count : (measureCounted first).length = (unitsOf w (first ++ missing)).length := by
    have all := h.legal.startCount_eq w
    rw [startCount_append, startCount_continuations h.tails, Nat.add_zero] at all
    rw [length_measureCounted, unitsOf, List.length_map, all]
  have read : unitsOf w (first ++ (missing ++ behind)) =
      unitsOf w (first ++ missing) ++ unitsOf w behind := by
    rw [← List.append_assoc]
    exact h.legal.unitsOf_append w behind
  have enough : (measureCounted first).length ≤
      (scanUnits w (first ++ (missing ++ behind))).length := by
    have all := congrArg List.length read
    rw [unitsOf, List.length_map, List.length_append] at all
    omega
  rw [ModifiedUtf8.decodeStored_eq width (measure_append first _) enough, read, count,
    List.take_left]

/-! ## Other last bytes -/

theorem IsSequence.concat_cases {init : Bytes} {last : UInt8}
    (h : IsSequence legacy (init ++ [last])) (several : init ≠ []) :
    (∃ lead, init = [lead] ∧ announcedSize lead = 2 ∧ isContinuation last = true ∧
      (legacy = true ∨ twoValue lead last = 0 ∨ 0x80 ≤ twoValue lead last)) ∨
    (∃ lead b, init = [lead, b] ∧ announcedSize lead = 3 ∧ isContinuation b = true ∧
      isContinuation last = true ∧ (legacy = true ∨ 0x800 ≤ threeValue lead b last)) := by
  generalize e : init ++ [last] = s at h
  cases h with
  | @one b =>
    have split : init ++ [last] = [] ++ [b] := e
    obtain ⟨rfl, -⟩ := List.append_inj' split rfl
    exact absurd rfl several
  | @two lead b kind tail shortest =>
    have split : init ++ [last] = [lead] ++ [b] := e
    obtain ⟨rfl, same⟩ := List.append_inj' split rfl
    cases same
    exact Or.inl ⟨lead, rfl, kind, tail, shortest⟩
  | @three lead b c kind tail final shortest =>
    have split : init ++ [last] = [lead, b] ++ [c] := e
    obtain ⟨rfl, same⟩ := List.append_inj' split rfl
    cases same
    exact Or.inr ⟨lead, b, rfl, kind, tail, final, shortest⟩

theorem exists_isContinuation_ne (b : UInt8) :
    ∃ other, isContinuation other = true ∧ tailBits other ≠ tailBits b := by
  by_cases zero : tailBits b = 0
  · refine ⟨0x81, rfl, ?_⟩
    rw [zero]
    decide
  · exact ⟨0x80, rfl, fun same => zero same.symm⟩

theorem le_twoValue_of_ne {lead b : UInt8} (kind : announcedSize lead = 2) (free : lead ≠ 0xC0)
    (shortest : twoValue lead b = 0 ∨ 0x80 ≤ twoValue lead b) (other : UInt8) :
    0x80 ≤ twoValue lead other := by
  rw [announcedSize_eq_two_iff] at kind
  have differs : lead.toNat ≠ 0xC0 := fun same => free (UInt8.toNat_inj.1 same)
  have := tailBits_lt b
  unfold twoValue at shortest ⊢
  omega

theorem le_threeValue {lead b c : UInt8} (shortest : 0x800 ≤ threeValue lead b c) (other : UInt8) :
    0x800 ≤ threeValue lead b other := by
  have := tailBits_lt c
  unfold threeValue at shortest ⊢
  omega

/-- A sequence of several bytes other than strict zero may end with another byte. -/
theorem IsSequence.exists_other_last {init : Bytes} {last : UInt8}
    (h : IsSequence legacy (init ++ [last])) (several : init ≠ [])
    (free : legacy = true ∨ init ≠ [0xC0]) :
    ∃ other, tailBits other ≠ tailBits last ∧ IsSequence legacy (init ++ [other]) := by
  obtain ⟨other, tail, differs⟩ := exists_isContinuation_ne last
  refine ⟨other, differs, ?_⟩
  rcases h.concat_cases several with ⟨lead, rfl, kind, -, shortest⟩ |
    ⟨lead, b, rfl, kind, second, -, shortest⟩
  · apply IsSequence.two kind tail
    rcases free with lax | free
    · exact Or.inl lax
    · refine shortest.imp_right fun shortest => Or.inr (le_twoValue_of_ne kind ?_ shortest other)
      rintro rfl
      exact free rfl
  · apply IsSequence.three kind second tail
    exact shortest.imp_right fun shortest => le_threeValue shortest other

theorem toNat_store_mod (w : Width) (n : Nat) : (w.store n).toNat % 64 = n % 64 := by
  rw [Width.toNat_store]
  cases w with
  | narrow =>
    rw [Width.narrow_bound]
    omega
  | wide =>
    rw [Width.wide_bound]
    omega

theorem IsSequence.unitsOf_concat {init : Bytes} {last : UInt8}
    (h : IsSequence legacy (init ++ [last])) (several : init ≠ []) (w : Width) :
    ∃ unit, unitsOf w (init ++ [last]) = [unit] ∧ unit.toNat % 64 = tailBits last := by
  have bound := tailBits_lt last
  rcases h.concat_cases several with ⟨lead, rfl, kind, tail, -⟩ | ⟨lead, b, rfl, kind, second, tail, -⟩
  · have found : IsSequence legacy [lead, last] := h
    refine ⟨_, found.unitsOf_eq w, ?_⟩
    rw [decodeUnit_two kind tail, toNat_store_mod, twoValue]
    omega
  · have found : IsSequence legacy [lead, b, last] := h
    refine ⟨_, found.unitsOf_eq w, ?_⟩
    rw [decodeUnit_three kind second tail, toNat_store_mod, threeValue]
    omega

theorem IsConcatenation.unitsOf_ne {front init : Bytes} {last other : UInt8}
    (before : IsConcatenation legacy front) (found : IsSequence legacy (init ++ [last]))
    (found' : IsSequence legacy (init ++ [other])) (several : init ≠ [])
    (differs : tailBits other ≠ tailBits last) (w : Width) :
    unitsOf w (front ++ (init ++ [other])) ≠ unitsOf w (front ++ (init ++ [last])) := by
  obtain ⟨unit, single, bits⟩ := found.unitsOf_concat several w
  obtain ⟨unit', single', bits'⟩ := found'.unitsOf_concat several w
  rw [before.unitsOf_append, before.unitsOf_append, single, single']
  intro same
  obtain rfl : unit' = unit := List.singleton_inj.1 (List.append_cancel_left same)
  exact differs (bits'.symm.trans bits)

/-! ## Strict zero -/

theorem eq_of_strict_zero {b : UInt8} (tail : isContinuation b = true)
    (shortest : twoValue 0xC0 b = 0 ∨ 0x80 ≤ twoValue 0xC0 b) : b = 0x80 := by
  have value : twoValue 0xC0 b = tailBits b := Nat.zero_add _
  have bound := tailBits_lt b
  have zero : tailBits b = 0 := by omega
  rw [isContinuation_iff] at tail
  rw [tailBits] at zero
  apply UInt8.toNat_inj.1
  show b.toNat = 128
  omega

theorem IsSequence.missing_of_zero {part missing : Bytes} (h : IsSequence false (part ++ missing))
    (last : part.getLast? = some 0xC0) : missing = [0x80] := by
  obtain ⟨init, rfl⟩ := List.getLast?_eq_some_iff.1 last
  obtain ⟨lead, tail, split, -, tails⟩ := h.exists_cons
  obtain rfl : init = [] := by
    cases init with
    | nil => rfl
    | cons b others =>
      obtain ⟨-, rfl⟩ := List.cons.inj split
      exact absurd (tails 0xC0 (by simp)) (by decide)
  generalize e : [] ++ [0xC0] ++ missing = s at h
  cases h with
  | one pos ascii =>
    cases e
    exact absurd ascii (by decide)
  | two kind tail shortest =>
    cases e
    rw [eq_of_strict_zero tail (shortest.resolve_left (by decide))]
  | three kind =>
    cases e
    exact absurd kind (by decide)

theorem IsConcatenation.exists_behind_zero {first rest : Bytes}
    (h : IsConcatenation false (first ++ rest)) (last : first.getLast? = some 0xC0) :
    Completes false first [0x80] ∧ ∃ behind, rest = [0x80] ++ behind := by
  have begun : first ≠ [] := by
    rintro rfl
    cases last
  obtain ⟨front, part, missing, behind, rfl, rfl, nonempty, before, found⟩ := h.exists_part begun
  rw [List.getLast?_append_of_ne_nil _ nonempty] at last
  obtain rfl := found.missing_of_zero last
  exact ⟨.of_isSequence before found nonempty, behind, rfl⟩

/-! ## What bytes behind the limit change -/

/-- The first bytes are legal, or they are strict and miss the last byte of a zero. -/
def Settles (legacy : Bool) (first : Bytes) : Prop :=
  isLegal legacy first = true ∨ (legacy = false ∧ first.getLast? = some 0xC0)

/-- There is one way to complete first bytes that settle what they are. -/
theorem Settles.exists_missing {first : Bytes} (h : Settles legacy first) :
    ∃ missing, ∀ rest, IsConcatenation legacy (first ++ rest) →
      Completes legacy first missing ∧ ∃ behind, rest = missing ++ behind := by
  rcases h with whole | ⟨rfl, last⟩
  · exact ⟨[], fun rest _ => ⟨.of_isLegal whole, rest, rfl⟩⟩
  · exact ⟨[0x80], fun rest legal => legal.exists_behind_zero last⟩

theorem IsConcatenation.exists_other_last {front part missing : Bytes}
    (before : IsConcatenation legacy front) (found : IsSequence legacy (part ++ missing))
    (nonempty : part ≠ []) (unsettled : ¬ Settles legacy (front ++ part)) :
    ∃ middle last other, missing = middle ++ [last] ∧ tailBits other ≠ tailBits last ∧
      IsSequence legacy (part ++ middle ++ [other]) := by
  rcases List.eq_nil_or_concat missing with rfl | ⟨middle, last, rfl⟩
  · rw [List.append_nil] at found
    exact absurd (Or.inl ((isLegal_iff _).2 (before.concat found.isConcatenation))) unsettled
  · rw [List.concat_eq_append, ← List.append_assoc] at found
    have several : part ++ middle ≠ [] := List.append_ne_nil_of_left_ne_nil nonempty middle
    have free : legacy = true ∨ part ++ middle ≠ [0xC0] := by
      by_contra zero
      rw [not_or, not_not, Bool.not_eq_true] at zero
      obtain ⟨lack, -⟩ | ⟨single, -⟩ := List.append_eq_singleton_iff.1 zero.2
      · exact nonempty lack
      · rw [single] at unsettled
        exact unsettled (Or.inr ⟨zero.1, List.getLast?_concat⟩)
    obtain ⟨other, differs, found'⟩ := found.exists_other_last several free
    exact ⟨middle, last, other, List.concat_eq_append, differs, found'⟩

/-- First bytes that settle nothing can be completed in two ways, to other units. -/
theorem IsConcatenation.exists_two_completes {first rest : Bytes}
    (h : IsConcatenation legacy (first ++ rest)) (unsettled : ¬ Settles legacy first) :
    ∃ missing behind other, rest = missing ++ behind ∧ Completes legacy first missing ∧
      Completes legacy first other ∧
      ∀ w, unitsOf w (first ++ other) ≠ unitsOf w (first ++ missing) := by
  have begun : first ≠ [] := by
    rintro rfl
    exact unsettled (Or.inl rfl)
  obtain ⟨front, part, missing, behind, rfl, rfl, nonempty, before, found⟩ := h.exists_part begun
  obtain ⟨middle, last, other, rfl, differs, found'⟩ :=
    before.exists_other_last found nonempty unsettled
  have several : part ++ middle ≠ [] := List.append_ne_nil_of_left_ne_nil nonempty middle
  refine ⟨_, behind, middle ++ [other], rfl, .of_isSequence before found nonempty,
    .of_isSequence before ?_ nonempty, fun w => ?_⟩
  · rwa [← List.append_assoc]
  · rw [← List.append_assoc] at found
    have apart := before.unitsOf_ne found found' several differs w
    simpa only [List.append_assoc] using apart

theorem IsConcatenation.exists_other {first rest : Bytes}
    (h : IsConcatenation legacy (first ++ rest)) (unsettled : ¬ Settles legacy first)
    (width : Option Width) : ∃ other, IsConcatenation legacy (first ++ other) ∧
      decodeStored (first ++ other) (.int first.length) width ≠
        decodeStored (first ++ rest) (.int first.length) width := by
  obtain ⟨missing, behind, other, rfl, completes, completes', apart⟩ :=
    h.exists_two_completes unsettled
  have result := completes.decodeStored_eq behind width
  have result' := completes'.decodeStored_eq [] width
  rw [List.append_nil] at result'
  refine ⟨other, completes'.legal, ?_⟩
  rw [result, result']
  intro same
  have units := (Stored.mk.inj (Except.ok.inj same)).2
  apply apart
  exact (List.map_inj_right fun a b e => UInt16.toNat_inj.1 (by exact_mod_cast e)).1 units

/-- `decodeStored` with a length ignores what lies behind it exactly if the bytes before it settle what
they are. -/
theorem decodeStored_ignores_rest_iff (legacy : Bool) {data : Bytes}
    (legal : isLegalWithin data .whole legacy = .ok true) {n : Nat} (le : n ≤ data.length)
    (width : Option Width) :
    ∃ stored, decodeStored data (.int n) width = .ok stored ∧
      ((∀ other, isLegalWithin other .whole legacy = .ok true → n ≤ other.length →
          other.take n = data.take n → decodeStored other (.int n) width = .ok stored) ↔
        Settles legacy (data.take n)) := by
  simp only [isLegalWithin_whole, Except.ok.injEq, isLegal_iff] at legal ⊢
  obtain ⟨first, rest, rfl, rfl⟩ := exists_append_of_le_length le
  rw [List.take_left]
  obtain ⟨missing, behind, rfl, completes⟩ := legal.exists_completes
  have result := completes.decodeStored_eq behind width
  refine ⟨_, result, ?_, ?_⟩
  · intro ignores
    by_contra unsettled
    obtain ⟨other, legal', apart⟩ := legal.exists_other unsettled width
    apply apart
    rw [result]
    exact ignores _ legal' (by simp) List.take_left
  · intro settles other legal' le' same
    obtain ⟨rest', rfl⟩ := List.prefix_iff_eq_take.2 same.symm
    obtain ⟨missing', unique⟩ := settles.exists_missing
    obtain ⟨completes', behind', rfl⟩ := unique rest' legal'
    obtain ⟨-, again, split⟩ := unique _ legal
    rw [← result, split, completes'.decodeStored_eq behind', completes'.decodeStored_eq again]

/-- A limit through a strict zero, whose last byte can only be `80`. -/
theorem decodeStored_ignores_rest_iff_of_zero :
    isLegalWithin [0x61, 0xC0, 0x80, 0xE2, 0x82, 0xAC] .whole false = .ok true ∧
    2 ≤ ([0x61, 0xC0, 0x80, 0xE2, 0x82, 0xAC] : Bytes).length ∧
    decodeStored [0x61, 0xC0, 0x80, 0xE2, 0x82, 0xAC] (.int 2) none = .ok ⟨.narrow, [0x61, 0]⟩ ∧
    ∀ other, isLegalWithin other .whole false = .ok true → 2 ≤ other.length →
      other.take 2 = [0x61, 0xC0] → decodeStored other (.int 2) none = .ok ⟨.narrow, [0x61, 0]⟩ := by
  have legal : isLegalWithin [0x61, 0xC0, 0x80, 0xE2, 0x82, 0xAC] .whole false = .ok true := by
    decide
  have le : 2 ≤ ([0x61, 0xC0, 0x80, 0xE2, 0x82, 0xAC] : Bytes).length := by decide
  have run : decodeStored [0x61, 0xC0, 0x80, 0xE2, 0x82, 0xAC] (.int 2) none =
      .ok ⟨.narrow, [0x61, 0]⟩ := rfl
  obtain ⟨stored, result, iff⟩ := decodeStored_ignores_rest_iff false legal le none
  obtain rfl := Except.ok.inj (run.symm.trans result)
  exact ⟨legal, le, run, iff.2 (Or.inr ⟨rfl, rfl⟩)⟩

/-- A limit through a euro sign, whose last byte lies behind it and makes a difference. -/
theorem decodeStored_of_cut_euro :
    decodeStored [0xE2, 0x82, 0xAC] (.int 1) (some .wide) = .ok ⟨.wide, [0x20AC]⟩ ∧
    decodeStored [0xE2, 0x82, 0xAD] (.int 1) (some .wide) = .ok ⟨.wide, [0x20AD]⟩ ∧
    ¬ ∀ (a b : Bytes) (n : Nat) (width : Option Width), isLegalWithin a .whole false = .ok true →
      isLegalWithin b .whole false = .ok true → n ≤ a.length → n ≤ b.length →
      a.take n = b.take n → decodeStored a (.int n) width = decodeStored b (.int n) width := by
  have euro : decodeStored [0xE2, 0x82, 0xAC] (.int 1) (some .wide) = .ok ⟨.wide, [0x20AC]⟩ := rfl
  have kip : decodeStored [0xE2, 0x82, 0xAD] (.int 1) (some .wide) = .ok ⟨.wide, [0x20AD]⟩ := rfl
  refine ⟨euro, kip, fun always => ?_⟩
  have same := always [0xE2, 0x82, 0xAC] [0xE2, 0x82, 0xAD] 1 (some .wide) (by decide) (by decide)
    (by decide) (by decide) rfl
  have equal := euro.symm.trans (same.trans kip)
  exact absurd equal (by decide)

end ModifiedUtf8
