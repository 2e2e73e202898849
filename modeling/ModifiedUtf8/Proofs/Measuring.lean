import Mathlib.Data.List.Chain
import ModifiedUtf8.Proofs.Storing

/-!
# Measures of any bytes

A measure is taken without decoding, and of any bytes it can be relied on.  A reader that takes one
unit passes over continuation bytes only, so that a scan has at least as many steps as bytes start a
unit (`startCount_le_length_scanUnits`): decoding as many units as were counted never runs out of
bytes (`decodeStored_eq_take`).  Where no continuation follows a lead above `0xC3`, the narrow scan and
the wide one are the same (`scanUnits_narrow_eq`), hence choosing the narrow width loses nothing
(`decodeStored_none_eq_wide`).

Both ways to measure come to one: up to a zero byte, bytes are measured as their part before it is
when counted (`measureTerminated_eq`).
-/

namespace ModifiedUtf8

/-! ## Steps of a scan -/

section Steps

variable (w : Width)

theorem isContinuation_of_mem_taken (lead : UInt8) (rest : Bytes) :
    ∀ b ∈ rest.take ((decodeUnit w lead rest).size - 1), isContinuation b = true := by
  rcases decodeUnit_cases w lead rest with ⟨b, more, rfl, -, tail, e⟩ |
    ⟨b, c, more, rfl, -, tail, last, e⟩ | e
  · simp [e, tail]
  · simp [e, tail, last]
  · simp [e]

/-- Each step takes at most one byte that starts a unit. -/
theorem startCount_le_length_scanUnits (data : Bytes) :
    startCount data ≤ (scanUnits w data).length := by
  induction data using scan_induction (decodeUnit w) with
  | nil => exact Nat.le_refl 0
  | cons lead rest ih =>
    -- of what the step takes, only the lead can start a unit
    have passed := startCount_continuations (isContinuation_of_mem_taken w lead rest)
    have first : startCount [lead] ≤ 1 := List.countP_le_length
    have parts : startCount (lead :: rest) = startCount [lead] + startCount rest :=
      startCount_append [lead] rest
    have split := startCount_append (rest.take ((decodeUnit w lead rest).size - 1))
      (rest.drop ((decodeUnit w lead rest).size - 1))
    rw [List.take_append_drop] at split
    rw [scanUnits_cons, List.length_cons]
    omega

theorem decodeUnit_size_le_of_start (lead : UInt8) (rest : Bytes) {back : Bytes}
    (start : ∀ b ∈ back.head?, isContinuation b = false) :
    (decodeUnit w lead (rest ++ back)).size ≤ rest.length + 1 := by
  by_contra beyond
  cases back with
  | nil =>
    have le := decodeUnit_size_le w lead rest
    rw [List.append_nil] at beyond
    exact beyond le
  | cons b more =>
    -- a reader that goes further passes over `b` as over a continuation
    have mem : b ∈ (rest ++ b :: more).take ((decodeUnit w lead (rest ++ b :: more)).size - 1) := by
      rw [List.take_append, List.mem_append]
      right
      have further : 0 < (decodeUnit w lead (rest ++ b :: more)).size - 1 - rest.length := by omega
      rw [List.take_cons further]
      exact List.mem_cons_self
    have tail := isContinuation_of_mem_taken w lead (rest ++ b :: more) b mem
    rw [start b rfl] at tail
    cases tail

theorem unitsOf_append_of_start (front : Bytes) {back : Bytes}
    (start : ∀ b ∈ back.head?, isContinuation b = false) :
    unitsOf w (front ++ back) = unitsOf w front ++ unitsOf w back := by
  induction front using scan_induction (decodeUnit w) with
  | nil => rfl
  | cons lead rest ih =>
    have inside := decodeUnit_size_le_of_start w lead rest start
    have same := decodeUnit_append inside
    rw [← same] at inside
    rw [List.cons_append, unitsOf_cons, unitsOf_cons, ← same,
      List.drop_append_of_le_length (by omega), ih, List.cons_append]

end Steps

/-! ## What a measure says -/

/-- Behind the byte before it, this one leads to no value that is too large for narrow storage. -/
def FitsBehind (before b : UInt8) : Prop := isContinuation b = true → before ≤ narrowLeadMax

namespace Measure

theorem isLatin1_countDown (m : Measure) (before : UInt8) (data : Bytes) :
    (m.countDown before data).isLatin1 = true ↔
      m.isLatin1 = true ∧ List.IsChain FitsBehind (before :: data) := by
  fun_induction countDown m before data with
  | case1 => simp
  | case2 m before b rest tail noted ih =>
    rw [ih, List.isChain_cons_cons]
    simp [noted, noteContinuation, FitsBehind, tail, and_assoc]
  | case3 m before b rest start ih =>
    rw [ih, List.isChain_cons_cons]
    simp [FitsBehind, start]

theorem isLatin1_countUp (m : Measure) (before : UInt8) (data : Bytes) :
    (m.countUp before data).isLatin1 = true ↔
      m.isLatin1 = true ∧ List.IsChain FitsBehind (before :: data.takeWhile (· != 0)) := by
  fun_induction countUp m before data with
  | case1 => simp
  | case2 => simp
  | case3 m before b rest nonzero tail ih =>
    rw [ih, List.takeWhile_cons_of_pos (by simpa using nonzero), List.isChain_cons_cons]
    simp [noteContinuation, FitsBehind, tail, and_assoc]
  | case4 m before b rest nonzero start ih =>
    rw [ih, List.takeWhile_cons_of_pos (by simpa using nonzero), List.isChain_cons_cons]
    simp [FitsBehind, start]

theorem hasMultibyte_countDown (m : Measure) (before : UInt8) (data : Bytes) :
    (m.countDown before data).hasMultibyte = (m.hasMultibyte || data.any isContinuation) := by
  fun_induction countDown m before data with
  | case1 => simp
  | case2 m before b rest tail noted ih =>
    rw [ih]
    simp [noted, noteContinuation, tail]
  | case3 m before b rest start ih => simp [ih, start]

theorem hasMultibyte_countUp (m : Measure) (before : UInt8) (data : Bytes) :
    (m.countUp before data).hasMultibyte =
      (m.hasMultibyte || (data.takeWhile (· != 0)).any isContinuation) := by
  fun_induction countUp m before data with
  | case1 => simp
  | case2 => simp
  | case3 m before b rest nonzero tail ih =>
    rw [ih, List.takeWhile_cons_of_pos (by simpa using nonzero)]
    simp [noteContinuation, tail]
  | case4 m before b rest nonzero start ih =>
    rw [ih, List.takeWhile_cons_of_pos (by simpa using nonzero)]
    simp [start]

end Measure

theorem isChain_zero_cons_iff (data : Bytes) :
    List.IsChain FitsBehind (0 :: data) ↔ List.IsChain FitsBehind data := by
  rw [List.isChain_cons]
  exact and_iff_right fun b _ _ => by decide

theorem isLatin1_measureCounted (data : Bytes) :
    (measureCounted data).isLatin1 = true ↔ List.IsChain FitsBehind data := by
  rw [measureCounted, Measure.isLatin1_countDown, isChain_zero_cons_iff]
  exact and_iff_right rfl

theorem hasMultibyte_measureCounted (data : Bytes) :
    (measureCounted data).hasMultibyte = data.any isContinuation := by
  rw [measureCounted, Measure.hasMultibyte_countDown]
  rfl

theorem measureTerminated_eq (data : Bytes) :
    measureTerminated data = measureCounted (data.takeWhile (· != 0)) := by
  have length := length_measureTerminated data
  have latin : (measureTerminated data).isLatin1 = true ↔
      List.IsChain FitsBehind (data.takeWhile (· != 0)) := by
    rw [measureTerminated, Measure.isLatin1_countUp, isChain_zero_cons_iff]
    exact and_iff_right rfl
  have multibyte : (measureTerminated data).hasMultibyte =
      (data.takeWhile (· != 0)).any isContinuation := by
    rw [measureTerminated, Measure.hasMultibyte_countUp]
    rfl
  rw [← length_measureCounted] at length
  rw [← isLatin1_measureCounted, Bool.coe_iff_coe] at latin
  rw [← hasMultibyte_measureCounted] at multibyte
  generalize measureTerminated data = m at length latin multibyte
  generalize measureCounted (data.takeWhile (· != 0)) = m' at length latin multibyte
  cases m
  cases m'
  simp only at length latin multibyte
  rw [length, latin, multibyte]

/-! ## Decoding what was counted -/

theorem length_measureCounted_le {part data : Bytes} (front : part <+: data) (w : Width) :
    (measureCounted part).length ≤ (scanUnits w data).length := by
  rw [length_measureCounted]
  calc startCount part
      ≤ startCount data := front.sublist.countP_le
    _ ≤ (scanUnits w data).length := startCount_le_length_scanUnits w data

/-- `measure` looks at a front part of the bytes. -/
theorem exists_measure_eq {data : Bytes} {length : Size}
    (accepted : length = .whole ∨ ∃ n : Nat, n ≤ data.length ∧ length = .int n) :
    ∃ part, part <+: data ∧ measure data length = .ok (measureCounted part) := by
  rcases accepted with rfl | ⟨n, le, rfl⟩
  · refine ⟨_, List.takeWhile_prefix (· != 0), ?_⟩
    rw [← measureTerminated_eq]
    rfl
  · exact ⟨_, List.take_prefix n data, measure_natCast le⟩

/-- `decodeStored` takes as many units of the scan as `measure` counts, from any bytes. -/
theorem decodeStored_eq_take {data : Bytes} {length : Size}
    (accepted : length = .whole ∨ ∃ n : Nat, n ≤ data.length ∧ length = .int n)
    (width : Option Width) :
    ∃ m w, measure data length = .ok m ∧ w = width.getD m.width ∧
      m.length ≤ (scanUnits w data).length ∧
      decodeStored data length width =
        .ok ⟨w, ((unitsOf w data).take m.length).map fun unit => (unit.toNat : Int)⟩ := by
  obtain ⟨part, front, measured⟩ := exists_measure_eq accepted
  have enough := length_measureCounted_le front (width.getD (measureCounted part).width)
  exact ⟨_, _, measured, rfl, enough, decodeStored_eq width measured enough⟩

/-- A lead without its bytes, a stray continuation and a zero byte within the length. -/
theorem decodeStored_eq_take_of_stray_bytes :
    (Size.int 5 = .whole ∨ ∃ n : Nat, n ≤ ([0xE0, 0x80, 0x61, 0x00, 0xC4] : Bytes).length ∧
      Size.int 5 = .int n) ∧
    measure [0xE0, 0x80, 0x61, 0x00, 0xC4] (.int 5) = .ok ⟨4, false, true⟩ ∧
    decodeStored [0xE0, 0x80, 0x61, 0x00, 0xC4] (.int 5) none =
      .ok ⟨.wide, [0xE0, 0x80, 0x61, 0]⟩ := by
  have accepted : Size.int 5 = .whole ∨ ∃ n : Nat,
      n ≤ ([0xE0, 0x80, 0x61, 0x00, 0xC4] : Bytes).length ∧ Size.int 5 = .int n :=
    Or.inr ⟨5, by decide, rfl⟩
  have counted : measure [0xE0, 0x80, 0x61, 0x00, 0xC4] (.int 5) = .ok ⟨4, false, true⟩ := rfl
  obtain ⟨m, w, measured, chosen, -, result⟩ := decodeStored_eq_take accepted none
  obtain rfl := Except.ok.inj (counted.symm.trans measured)
  subst chosen
  exact ⟨accepted, counted, result⟩

/-! ## The narrow scan and the wide one -/

theorem le_narrowLeadMax_iff (b : UInt8) : b ≤ narrowLeadMax ↔ b.toNat ≤ 0xC3 :=
  UInt8.le_iff_toNat_le

theorem narrow_store_eq {n : Nat} (h : n < 256) : Width.narrow.store n = Width.wide.store n := by
  have wide : n < Width.wide.bound := Nat.lt_trans h (by decide)
  apply UInt16.toNat_inj.1
  rw [Width.toNat_store_natCast wide]
  exact Width.toNat_store_natCast h

/-- Both widths read the same unless a continuation follows a lead above `C3`. -/
theorem decodeUnit_narrow_eq {lead : UInt8} {rest : Bytes}
    (fits : ∀ b ∈ rest.head?, FitsBehind lead b) :
    decodeUnit .narrow lead rest = decodeUnit .wide lead rest := by
  unfold decodeUnit
  split
  · next b more kind =>
    by_cases tail : isContinuation b = true
    · have low := (le_narrowLeadMax_iff lead).1 (fits b rfl tail)
      have bits := tailBits_lt b
      rw [announcedSize_eq_two_iff] at kind
      rw [if_pos tail, if_pos tail, narrow_store_eq]
      unfold twoValue
      omega
    · rw [if_neg tail, if_neg tail]
  · next b c more kind =>
    by_cases tail : isContinuation b = true
    · have low := (le_narrowLeadMax_iff lead).1 (fits b rfl tail)
      rw [announcedSize_eq_three_iff] at kind
      omega
    · simp [tail]
  · rfl

theorem scanUnits_narrow_eq {data : Bytes} (fits : List.IsChain FitsBehind data) :
    scanUnits .narrow data = scanUnits .wide data := by
  induction data using scan_induction (decodeUnit .narrow) with
  | nil => rfl
  | cons lead rest ih =>
    obtain ⟨first, others⟩ := List.isChain_cons.1 fits
    have same := decodeUnit_narrow_eq first
    rw [scanUnits_cons, scanUnits_cons, ih (others.drop _), same]

theorem take_unitsOf_width (part : Bytes) {rest : Bytes}
    (start : ∀ b ∈ rest.head?, isContinuation b = false) :
    let m := measureCounted part
    (unitsOf m.width (part ++ rest)).take m.length = (unitsOf .wide (part ++ rest)).take m.length := by
  intro m
  -- `rest` may hold what narrow storage cannot, but the units of `part` are enough
  have within (w : Width) :
      (unitsOf w (part ++ rest)).take m.length = (unitsOf w part).take m.length := by
    have enough : m.length ≤ (unitsOf w part).length := by
      rw [unitsOf, List.length_map]
      exact length_measureCounted_le List.prefix_rfl w
    rw [unitsOf_append_of_start w part start, List.take_append_of_le_length enough]
  rw [within, within]
  by_cases latin : m.isLatin1 = true
  · have same := scanUnits_narrow_eq ((isLatin1_measureCounted part).1 latin)
    rw [Measure.width, if_pos latin, unitsOf, same]
    rfl
  · rw [Measure.width, if_neg latin]

/-! ## Measures of what was written -/

theorem isChain_encodeUnit_iff (unit : CodeUnit) :
    List.IsChain FitsBehind (encodeUnit unit) ↔ unit.toNat ≤ 0xFF := by
  rcases encodeUnit_cases unit with ⟨b, e, -, ascii, value⟩ | ⟨lead, b, e, kind, tail, value, -⟩ |
    ⟨lead, b, c, e, kind, tail, last, -, ge⟩
  · rw [e, value]
    simp
    omega
  · have bits := tailBits_lt b
    rw [announcedSize_eq_two_iff] at kind
    rw [e, List.isChain_pair, FitsBehind, le_narrowLeadMax_iff, value, twoValue]
    simp only [tail, forall_const]
    omega
  · rw [announcedSize_eq_three_iff] at kind
    rw [e, List.isChain_cons_cons, FitsBehind, le_narrowLeadMax_iff]
    simp only [tail, forall_const]
    omega

theorem IsConcatenation.isContinuation_head {legacy : Bool} {data : Bytes}
    (h : IsConcatenation legacy data) : ∀ b ∈ data.head?, isContinuation b = false := by
  cases h with
  | nil => simp
  | append first _ =>
    obtain ⟨lead, tail, rfl, -, tails⟩ := first.exists_cons
    have one := first.startCount_eq
    rintro b ⟨⟩
    by_contra continues
    rw [Bool.not_eq_false] at continues
    rw [startCount_continuations (List.forall_mem_cons.2 ⟨continues, tails⟩)] at one
    cases one

theorem isChain_encodeUnits_iff (units : List CodeUnit) :
    List.IsChain FitsBehind (encodeUnits units) ↔ ∀ unit ∈ units, unit.toNat ≤ 0xFF := by
  induction units with
  | nil => simp
  | cons unit units ih =>
    have between : ∀ a ∈ (encodeUnit unit).getLast?, ∀ b ∈ (encodeUnits units).head?,
        FitsBehind a b := by
      intro a _ b first tail
      rw [(isConcatenation_encodeUnits false units).isContinuation_head b first] at tail
      cases tail
    rw [encodeUnits_cons, List.isChain_append, isChain_encodeUnit_iff, ih, List.forall_mem_cons]
    exact and_congr_right fun _ => and_iff_left between

theorem any_isContinuation_encodeUnit_iff (unit : CodeUnit) :
    (encodeUnit unit).any isContinuation = true ↔ unit.toNat = 0 ∨ 0x80 ≤ unit.toNat := by
  rcases encodeUnit_cases unit with ⟨b, e, pos, ascii, value⟩ |
    ⟨lead, b, e, -, tail, -, several⟩ | ⟨lead, b, c, e, -, tail, last, -, ge⟩
  · simp [e, isContinuation_of_lt ascii]
    omega
  · simp [e, tail, several]
  · simp [e, tail]
    omega

theorem any_isContinuation_encodeUnits_iff (units : List CodeUnit) :
    (encodeUnits units).any isContinuation = true ↔
      ∃ unit ∈ units, unit.toNat = 0 ∨ 0x80 ≤ unit.toNat := by
  rw [encodeUnits, List.any_flatMap, List.any_eq_true]
  simp only [any_isContinuation_encodeUnit_iff]

/-! ## The width that a measure suggests -/

theorem exists_measure_eq_of_whole {data : Bytes} {length : Size}
    (whole : length = .whole ∨ length = .int data.length) :
    ∃ part rest, data = part ++ rest ∧ (∀ b ∈ rest.head?, b = 0) ∧
      measure data length = .ok (measureCounted part) := by
  rcases whole with rfl | rfl
  · refine ⟨data.takeWhile (· != 0), data.dropWhile (· != 0), List.takeWhile_append_dropWhile.symm,
      ?_, ?_⟩
    · intro b first
      have stopped := List.head?_dropWhile_not (· != 0) data
      rw [Option.mem_def.1 first] at stopped
      simpa using stopped
    · rw [← measureTerminated_eq]
      rfl
  · exact ⟨data, [], (List.append_nil data).symm, by simp, measure_all data⟩

theorem eq_nil_of_zero_notMem {part rest : Bytes} (stop : ∀ b ∈ rest.head?, b = 0)
    (nonzero : 0 ∉ part ++ rest) : rest = [] := by
  cases rest with
  | nil => rfl
  | cons b more =>
    obtain rfl := stop b rfl
    exact absurd (List.mem_append_right part List.mem_cons_self) nonzero

theorem width_measureCounted_encodeUnits (units : List CodeUnit) :
    (measureCounted (encodeUnits units)).width = .narrow ↔ ∀ unit ∈ units, unit.toNat ≤ 0xFF := by
  rw [← isChain_encodeUnits_iff, ← isLatin1_measureCounted, Measure.width]
  simp

/-- The width that `measure` suggests holds the same units as the wide one. -/
theorem decodeStored_none_eq_wide {data : Bytes} {length : Size}
    (whole : length = .whole ∨ length = .int data.length) :
    ∃ m w units, measure data length = .ok m ∧
      decodeStored data length none = .ok ⟨w, units⟩ ∧
      decodeStored data length (some .wide) = .ok ⟨.wide, units⟩ ∧
      (isLegalWithin data .whole false = .ok true →
        units = (unitsOf .wide data).map (fun unit => (unit.toNat : Int)) ∧
        (w = .narrow ↔ ∀ unit ∈ units, unit ≤ 0xFF) ∧
        (m.hasMultibyte = true ↔ ∃ unit ∈ units, unit = 0 ∨ 0x80 ≤ unit)) := by
  obtain ⟨part, rest, rfl, stop, measured⟩ := exists_measure_eq_of_whole whole
  have start : ∀ b ∈ rest.head?, isContinuation b = false := by
    intro b first
    rw [stop b first]
    rfl
  have enough := length_measureCounted_le (List.prefix_append part rest)
  have chosen := decodeStored_eq none measured (enough _)
  have wide := decodeStored_eq (some .wide) measured (enough _)
  rw [Option.getD_none, take_unitsOf_width part start] at chosen
  refine ⟨_, _, _, measured, chosen, wide, fun legal => ?_⟩
  rw [isLegalWithin_whole, Except.ok.injEq, isLegal_strict_iff] at legal
  obtain ⟨units, written⟩ := legal
  obtain rfl : rest = [] := eq_nil_of_zero_notMem stop (written ▸ zero_notMem_encodeUnits units)
  rw [List.append_nil] at written ⊢
  subst written
  rw [hasMultibyte_measureCounted, any_isContinuation_encodeUnits_iff,
    width_measureCounted_encodeUnits, length_measureCounted, startCount_encodeUnits,
    unitsOf_wide_encodeUnits, List.take_length, List.forall_mem_map]
  refine ⟨rfl, ?_, ?_⟩
  · exact forall₂_congr fun unit _ => by omega
  · simp only [List.mem_map, exists_exists_and_eq_and]
    exact exists_congr fun unit => and_congr_right fun _ => by omega

/-- Two units that fit in a byte each, one of them written in two. -/
theorem decodeStored_none_eq_wide_of_accent :
    (Size.whole = .whole ∨ Size.whole = .int ([0x61, 0xC3, 0xA9] : Bytes).length) ∧
    isLegalWithin [0x61, 0xC3, 0xA9] .whole false = .ok true ∧
    decodeStored [0x61, 0xC3, 0xA9] .whole none = .ok ⟨.narrow, [0x61, 0xE9]⟩ ∧
    decodeStored [0x61, 0xC3, 0xA9] .whole (some .wide) = .ok ⟨.wide, [0x61, 0xE9]⟩ ∧
    ∃ m, measure [0x61, 0xC3, 0xA9] .whole = .ok m ∧ m.hasMultibyte = true := by
  have whole : Size.whole = .whole ∨ Size.whole = .int ([0x61, 0xC3, 0xA9] : Bytes).length :=
    Or.inl rfl
  have legal : isLegalWithin [0x61, 0xC3, 0xA9] .whole false = .ok true := by decide
  have run : decodeStored [0x61, 0xC3, 0xA9] .whole none = .ok ⟨.narrow, [0x61, 0xE9]⟩ := rfl
  obtain ⟨m, w, units, measured, chosen, wide, of_legal⟩ := decodeStored_none_eq_wide whole
  obtain ⟨-, rfl⟩ := Stored.mk.inj (Except.ok.inj (run.symm.trans chosen))
  obtain ⟨-, -, several⟩ := of_legal legal
  exact ⟨whole, legal, run, wide, m, measured, several.2 ⟨0xE9, by decide, by decide⟩⟩

end ModifiedUtf8
