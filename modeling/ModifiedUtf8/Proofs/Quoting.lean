import ModifiedUtf8.Proofs.Rendering
import ModifiedUtf8.Proofs.RoundTrip
import ModifiedUtf8.Proofs.Unquoting

/-!
# Quoting and unquoting

A unit other than a backslash is rendered as one token, which stands for its encoding
(`spells_tokenOf`, `bytes_tokenOf`).  So a rendering without backslash units is read back as what
was rendered.  A backslash unit is rendered as it is, and the reader takes it for the beginning of
an escape: it swallows the renderings of other units and gives less than was rendered
(`Spelled.length_bytes_le`).  Bytes therefore survive exactly if they are legal and hold no
backslash (`unquoteText_ofBytes_iff`).

Whatever ASCII is read as is the encoding of a list of units, quoted before or not, and so it is
legal (`isLegalWithin_of_unquote`).
-/

namespace ModifiedUtf8

namespace Quoted

/-! ## One unit -/

/-- The token of a unit that is not a backslash. -/
def tokenOf (unit : CodeUnit) : Token :=
  if isPlain unit then .plain (UInt8.ofNat unit.toNat) else .unit unit

theorem hexValue?_hexDigit (n : Nat) : hexValue? (hexDigit n) = some (n % 16) := by
  have lt : n % 16 < 16 := Nat.mod_lt _ (by decide)
  simp only [hexValue?, toNat_hexDigit]
  by_cases decimal : n % 16 < 10
  · rw [if_pos decimal, if_pos (by omega), Nat.add_sub_cancel_left]
  · rw [if_neg decimal, if_neg (by omega), if_pos (by omega), Nat.add_sub_cancel_left]

theorem unitOfDigits?_hexDigit (unit : CodeUnit) :
    unitOfDigits? (hexDigit (unit.toNat / 4096)) (hexDigit (unit.toNat / 256))
      (hexDigit (unit.toNat / 16)) (hexDigit unit.toNat) = some unit := by
  have bound := unit.toNat_lt
  simp only [unitOfDigits?, hexValue?_hexDigit, Option.some.injEq]
  rw [← UInt16.toNat_inj, UInt16.toNat_ofNat']
  omega

theorem spells_tokenOf {unit : CodeUnit} (h : unit.toNat ≠ backslash.toNat) :
    (tokenOf unit).Spells (render unit) := by
  unfold tokenOf
  split
  · next plain =>
    rw [render_plain plain]
    refine .plain fun same => h ?_
    rw [← same, toNat_ofNat_of_isPlain plain]
  · next other =>
    rw [render_escape (Bool.eq_false_iff.2 other)]
    exact .unit (unitOfDigits?_hexDigit unit)

theorem encodeUnit_of_isPlain {unit : CodeUnit} (h : isPlain unit = true) :
    encodeUnit unit = [UInt8.ofNat unit.toNat] := by
  rw [isPlain_iff] at h
  exact encodeUnit_one (by omega) (by omega)

theorem length_encodeUnits_of_isPlain {unit : CodeUnit} (h : isPlain unit = true)
    (units : List CodeUnit) :
    (encodeUnits (unit :: units)).length = (encodeUnits units).length + 1 := by
  rw [encodeUnits_cons, encodeUnit_of_isPlain h, List.singleton_append, List.length_cons]

theorem bytes_tokenOf (unit : CodeUnit) : (tokenOf unit).bytes = encodeUnit unit := by
  unfold tokenOf
  split
  · next plain => exact (encodeUnit_of_isPlain plain).symm
  · rfl

/-! ## Without a backslash -/

theorem spelled_flatMap_render {units : List CodeUnit}
    (h : ∀ unit ∈ units, unit.toNat ≠ backslash.toNat) :
    Spelled (units.map tokenOf) (units.flatMap render) := by
  induction units with
  | nil => exact .nil
  | cons unit units ih =>
    obtain ⟨first, others⟩ := List.forall_mem_cons.1 h
    exact .cons (spells_tokenOf first) (ih others)

theorem flatMap_bytes_tokenOf (units : List CodeUnit) :
    (units.map tokenOf).flatMap Token.bytes = encodeUnits units := by
  rw [List.flatMap_map]
  exact List.flatMap_congr fun unit _ => bytes_tokenOf unit

/-! ## With a backslash -/

theorem flatMap_render_eq_cons {units : List CodeUnit} {b : UInt8} {rest : Bytes}
    (h : units.flatMap render = b :: rest) : ∃ unit others, units = unit :: others ∧
      (isPlain unit = true ∧ unit.toNat = b.toNat ∧ others.flatMap render = rest ∨
        b = backslash ∧ isPlain unit = false) := by
  cases units with
  | nil => cases h
  | cons unit others =>
    refine ⟨unit, others, rfl, ?_⟩
    by_cases plain : isPlain unit = true
    · rw [List.flatMap_cons, render_plain plain, List.singleton_append, List.cons.injEq] at h
      refine Or.inl ⟨plain, ?_, h.2⟩
      rw [← h.1, toNat_ofNat_of_isPlain plain]
    · rw [Bool.not_eq_true] at plain
      rw [List.flatMap_cons, render_escape plain, List.cons_append, List.cons.injEq] at h
      exact Or.inr ⟨h.1.symm, plain⟩

theorem exists_units_of_flatMap_render {units : List CodeUnit} {s rest : Bytes}
    (h : units.flatMap render = s ++ rest) (other : backslash ∉ s) : ∃ used others,
      units = used ++ others ∧ others.flatMap render = rest ∧
      (encodeUnits used).length = s.length ∧ ∀ unit ∈ used, unit.toNat ≠ backslash.toNat := by
  induction s generalizing units with
  | nil => exact ⟨[], units, rfl, h, rfl, List.forall_mem_nil _⟩
  | cons b s ih =>
    obtain ⟨first, behind⟩ := not_or.1 (mt List.mem_cons.2 other)
    obtain ⟨unit, others, rfl, ⟨plain, value, tail⟩ | ⟨isBackslash, -⟩⟩ :=
      flatMap_render_eq_cons h
    · obtain ⟨used, others, rfl, last, size, kept⟩ := ih tail behind
      refine ⟨unit :: used, others, rfl, last, ?_, List.forall_mem_cons.2 ⟨?_, kept⟩⟩
      · rw [length_encodeUnits_of_isPlain plain, List.length_cons, size]
      · rw [value, ne_eq, UInt8.toNat_inj]
        exact Ne.symm first
    · exact absurd isBackslash.symm first

theorem ne_backslash_of_hexValue? {d : UInt8} {v : Nat} (h : hexValue? d = some v) :
    backslash ≠ d := by
  rintro rfl
  cases h

theorem backslash_notMem_of_unitOfDigits? {d3 d2 d1 d0 : UInt8} {u : CodeUnit}
    (h : unitOfDigits? d3 d2 d1 d0 = some u) : backslash ∉ [letterU, d3, d2, d1, d0] := by
  unfold unitOfDigits? at h
  split at h
  · next h3 h2 h1 h0 =>
    simp only [List.mem_cons, List.not_mem_nil, or_false, not_or]
    exact ⟨by decide, ne_backslash_of_hexValue? h3, ne_backslash_of_hexValue? h2,
      ne_backslash_of_hexValue? h1, ne_backslash_of_hexValue? h0⟩
  · cases h

/-- A backslash rendered as it is takes the units behind it for its letter and digits. -/
theorem exists_units_of_escape {unit : CodeUnit} {others : List CodeUnit} {s rest : Bytes}
    (plain : isPlain unit = true) (h : others.flatMap render = s ++ rest) (other : backslash ∉ s) :
    ∃ used behind, unit :: others = used ++ behind ∧ behind.flatMap render = rest ∧
      (encodeUnits used).length = s.length + 1 := by
  obtain ⟨used, behind, rfl, tail, size, -⟩ := exists_units_of_flatMap_render h other
  refine ⟨unit :: used, behind, rfl, tail, ?_⟩
  rw [length_encodeUnits_of_isPlain plain, size]

/-- A token of a rendering takes whole units, and stands for fewer bytes if a backslash is among them. -/
theorem Token.Spells.exists_units {token : Token} {s rest : Bytes} {units : List CodeUnit}
    (front : token.Spells s) (h : units.flatMap render = s ++ rest) : ∃ used others,
      units = used ++ others ∧ others.flatMap render = rest ∧
      (token.bytes.length < (encodeUnits used).length ∨
        token.bytes.length = (encodeUnits used).length ∧
          ∀ unit ∈ used, unit.toNat ≠ backslash.toNat) := by
  cases front with
  | @plain b other =>
    obtain ⟨used, others, split, tail, size, kept⟩ :=
      exists_units_of_flatMap_render h (by simpa using Ne.symm other)
    exact ⟨used, others, split, tail, Or.inr ⟨size.symm, kept⟩⟩
  | @control letter b known =>
    obtain ⟨unit, others, rfl, ⟨plain, -, tail⟩ | ⟨-, escape⟩⟩ := flatMap_render_eq_cons h
    · have other : backslash ∉ [letter] := by
        rw [List.mem_singleton]
        rintro rfl
        cases known
      obtain ⟨used, behind, split, last, size⟩ := exists_units_of_escape plain tail other
      refine ⟨used, behind, split, last, Or.inl ?_⟩
      rw [size]
      exact Nat.lt_succ_self 1
    · -- the letter of an escape that was rendered writes no control character
      rw [List.flatMap_cons, render_escape escape] at h
      injection h with _ h
      injection h with isLetterU _
      exact absurd isLetterU.symm (ne_letterU_of_controlOf? known)
  | @unit d3 d2 d1 d0 u digits =>
    obtain ⟨unit, others, rfl, ⟨plain, -, tail⟩ | ⟨-, escape⟩⟩ := flatMap_render_eq_cons h
    · obtain ⟨used, behind, split, last, size⟩ :=
        exists_units_of_escape plain tail (backslash_notMem_of_unitOfDigits? digits)
      have small : (Token.unit u).bytes.length ≤ 3 := by
        rw [Token.length_bytes]
        exact encodedSize_le .wide _
      refine ⟨used, behind, split, last, Or.inl ?_⟩
      rw [size]
      exact Nat.lt_of_le_of_lt small (show 3 < 6 by decide)
    · -- the digits are those that were rendered, so they write the same unit
      rw [List.flatMap_cons, render_escape escape] at h
      simp only [List.cons_append, List.nil_append, List.cons.injEq, true_and] at h
      obtain ⟨e3, e2, e1, e0, tail⟩ := h
      have sameUnit : some u = some unit := by
        rw [← unitOfDigits?_hexDigit unit, e3, e2, e1, e0, digits]
      refine ⟨[unit], others, rfl, tail, Or.inr ⟨?_, List.forall_mem_singleton.2 ?_⟩⟩
      · rw [Option.some.inj sameUnit, encodeUnits_singleton, Token.bytes]
      · intro isBackslash
        rw [← Bool.not_eq_true, isPlain_iff, isBackslash] at escape
        exact escape (by decide)

theorem Spelled.length_bytes_le {tokens : List Token} {units : List CodeUnit}
    (h : Spelled tokens (units.flatMap render)) :
    (tokens.flatMap Token.bytes).length ≤ (encodeUnits units).length ∧
      ((tokens.flatMap Token.bytes).length = (encodeUnits units).length →
        ∀ unit ∈ units, unit.toNat ≠ backslash.toNat) := by
  generalize e : units.flatMap render = raw at h
  induction h generalizing units with
  | nil =>
    cases units with
    | nil => exact ⟨Nat.le_refl _, fun _ => List.forall_mem_nil _⟩
    | cons unit others =>
      have size := congrArg List.length e
      rw [length_flatMap_render, renderedLength, totalSize_cons, renderedSize,
        List.length_nil] at size
      split at size <;> omega
  | cons front _ ih =>
    obtain ⟨used, others, rfl, tail, step⟩ := front.exists_units e
    obtain ⟨le, exact⟩ := ih tail
    rw [List.flatMap_cons, List.length_append, encodeUnits_append, List.length_append]
    refine ⟨by omega, fun same => ?_⟩
    obtain less | ⟨first, kept⟩ := step
    · omega
    · exact List.forall_mem_append.2 ⟨kept, exact (by omega)⟩

/-! ## Bytes -/

theorem backslash_notMem_encodeUnits {units : List CodeUnit} :
    backslash ∉ encodeUnits units ↔ ∀ unit ∈ units, unit.toNat ≠ backslash.toNat := by
  rw [mem_encodeUnits_iff (by decide), and_iff_right (by decide)]
  simp only [not_exists, not_and, ne_eq]

/-- `unquoteText` inverts `ofBytes` exactly on legal bytes without a backslash. -/
theorem unquoteText_ofBytes_iff (data : Bytes) : ∃ text, ofBytes data .whole = .ok text ∧
    (unquoteText text = .ok data ↔
      isLegalWithin data .whole false = .ok true ∧ backslash ∉ data) := by
  have all : Size.whole.lengthOf data = .ok data.length := rfl
  refine ⟨_, ofBytes_of_lengthOf all, ?_⟩
  have ascii : ∀ b ∈ (unitsOf .wide data).flatMap render, b ≠ 0 ∧ b.toNat < 0x80 := by
    intro b mem
    obtain ⟨ge, le⟩ := printable_of_mem_flatMap_render mem
    refine ⟨?_, by omega⟩
    rintro rfl
    exact absurd ge (by decide)
  rw [List.take_length, unquoteText_ofBytes ascii, map_eq_ok_iff, isLegalWithin_whole,
    Except.ok.injEq, isLegal_strict_iff]
  simp only [tokensFrom_eq_ok_iff]
  constructor
  · rintro ⟨tokens, spelled, same⟩
    obtain ⟨units, written⟩ := spelled.exists_encodeUnits ascii
    rw [same] at written
    refine ⟨⟨units, written⟩, ?_⟩
    rw [← written, unitsOf_wide_encodeUnits] at spelled
    rw [← written, backslash_notMem_encodeUnits]
    exact spelled.length_bytes_le.2 (by rw [same, written])
  · rintro ⟨⟨units, rfl⟩, noBackslash⟩
    rw [backslash_notMem_encodeUnits] at noBackslash
    refine ⟨units.map tokenOf, ?_, flatMap_bytes_tokenOf units⟩
    rw [unitsOf_wide_encodeUnits]
    exact spelled_flatMap_render noBackslash

/-- A backslash alone is quoted as it is, and then taken for the beginning of an escape. -/
theorem unquoteText_ofBytes_backslash :
    isLegalWithin [backslash] .whole false = .ok true ∧
      ofBytes [backslash] .whole = .ok (Text.ofBytes [backslash]) ∧
      unquoteText (Text.ofBytes [backslash]) = .error (.unknownEscape 0 [backslash]) ∧
      ¬ ∀ data, isLegalWithin data .whole false = .ok true →
        ∃ text, ofBytes data .whole = .ok text ∧ unquoteText text = .ok data := by
  have legal : isLegalWithin [backslash] .whole false = .ok true := by decide
  have quoted : ofBytes [backslash] .whole = .ok (Text.ofBytes [backslash]) := by decide
  have refused :
      unquoteText (Text.ofBytes [backslash]) = .error (.unknownEscape 0 [backslash]) := by decide
  refine ⟨legal, quoted, refused, fun undone => ?_⟩
  obtain ⟨text, same, read⟩ := undone _ legal
  rw [quoted, Except.ok.injEq] at same
  rw [← same, refused] at read
  cases read

/-! ## Legality of what is read -/

theorem exists_encodeUnits_of_unquote {raw data : Bytes} (ascii : ∀ b ∈ raw, b.toNat < 0x80)
    (read : unquote raw = .ok data) : ∃ units, encodeUnits units = data := by
  rw [unquote_eq, map_eq_ok_iff] at read
  obtain ⟨tokens, found, rfl⟩ := read
  have spelled := tokensFrom_eq_ok_iff.1 found
  exact spelled.exists_encodeUnits (ascii_beforeNul ascii)

theorem legal_of_unquote {raw data : Bytes} (ascii : ∀ b ∈ raw, b.toNat < 0x80)
    (read : unquote raw = .ok data) :
    isLegalWithin data .whole false = .ok true ∧ 0 ∉ data := by
  obtain ⟨units, rfl⟩ := exists_encodeUnits_of_unquote ascii read
  rw [isLegalWithin_whole, isLegal_encodeUnits]
  exact ⟨rfl, zero_notMem_encodeUnits units⟩

/-- Whatever `unquote` gives for ASCII, or `unquoteText` for any text, is legal and has no zero byte. -/
theorem isLegalWithin_of_unquote :
    (∀ raw data : Bytes, (∀ b ∈ raw, b.toNat < 0x80) → unquote raw = .ok data →
      isLegalWithin data .whole false = .ok true ∧ 0 ∉ data) ∧
    ∀ (text : Text) (data : Bytes), unquoteText text = .ok data →
      isLegalWithin data .whole false = .ok true ∧ 0 ∉ data := by
  constructor
  · intro raw data
    exact legal_of_unquote
  · intro text data read
    obtain ⟨raw, -, ascii, bytes⟩ := unquoteText_eq_ok_iff.1 read
    exact legal_of_unquote ascii bytes

/-- An escaped zero and a tab before a zero byte, and the text of a lone high surrogate. -/
theorem isLegalWithin_of_unquote_zero :
    ((∀ b ∈ ([0x5C, 0x75, 0x30, 0x30, 0x30, 0x30, 0x5C, 0x74, 0x00, 0x5C] : Bytes),
        b.toNat < 0x80) ∧
      unquote [0x5C, 0x75, 0x30, 0x30, 0x30, 0x30, 0x5C, 0x74, 0x00, 0x5C] =
        .ok [0xC0, 0x80, 0x09] ∧
      isLegalWithin [0xC0, 0x80, 0x09] .whole false = .ok true ∧
      0 ∉ ([0xC0, 0x80, 0x09] : Bytes)) ∧
    unquoteText (Text.ofBytes [0x5C, 0x75, 0x64, 0x38, 0x33, 0x44]) = .ok [0xED, 0xA0, 0xBD] ∧
    isLegalWithin [0xED, 0xA0, 0xBD] .whole false = .ok true ∧
    0 ∉ ([0xED, 0xA0, 0xBD] : Bytes) := by
  have ascii : ∀ b ∈ ([0x5C, 0x75, 0x30, 0x30, 0x30, 0x30, 0x5C, 0x74, 0x00, 0x5C] : Bytes),
      b.toNat < 0x80 := by simp
  have bytes : unquote [0x5C, 0x75, 0x30, 0x30, 0x30, 0x30, 0x5C, 0x74, 0x00, 0x5C] =
      .ok [0xC0, 0x80, 0x09] := by decide
  have text : unquoteText (Text.ofBytes [0x5C, 0x75, 0x64, 0x38, 0x33, 0x44]) =
      .ok [0xED, 0xA0, 0xBD] := by decide
  exact ⟨⟨ascii, bytes, isLegalWithin_of_unquote.1 _ _ ascii bytes⟩, text,
    isLegalWithin_of_unquote.2 _ _ text⟩

end Quoted

end ModifiedUtf8
