import ModifiedUtf8.Proofs.Unquoting

/-!
# What quoted-ascii means

`IsToken` lists the tokens of quoted-ascii with the bytes that they stand for, and `IsTokens` puts
them one after another.  Bytes are such a concatenation, or tokens lead up to a backslash at which
none begins (`exists_spelled_front`).  The reader gives in the first case what the tokens stand for,
and in the second it refuses that backslash (`unquote_eq_iff`).
-/

namespace ModifiedUtf8

namespace Quoted

/-! ## The grammar -/

/-- The character of a hexadecimal digit, in either case. -/
def IsDigit (v : Nat) (d : UInt8) : Prop :=
  v < 16 ∧ (d.toNat = (Nat.digitChar v).toNat ∨ d.toNat = (Nat.digitChar v).toUpper.toNat)

/-- A token and the bytes that it stands for. -/
inductive IsToken : Bytes → Bytes → Prop where
  | plain {b : UInt8} (other : b ≠ backslash) : IsToken [b] [b]
  | tab : IsToken [backslash, 0x74] [0x09]
  | lineFeed : IsToken [backslash, 0x6E] [0x0A]
  | carriageReturn : IsToken [backslash, 0x72] [0x0D]
  | formFeed : IsToken [backslash, 0x66] [0x0C]
  | unit {v3 v2 v1 v0 : Nat} {d3 d2 d1 d0 : UInt8} {data : Bytes} (h3 : IsDigit v3 d3)
      (h2 : IsDigit v2 d2) (h1 : IsDigit v1 d1) (h0 : IsDigit v0 d0)
      (encoded : encodeUnit? ((v3 * 0x1000 + v2 * 0x100 + v1 * 0x10 + v0 : Nat) : Int) = .ok data) :
      IsToken [backslash, letterU, d3, d2, d1, d0] data

/-- Tokens put one after another and the bytes that they stand for. -/
inductive IsTokens : Bytes → Bytes → Prop where
  | nil : IsTokens [] []
  | append {s data rest others : Bytes} (front : IsToken s data) (back : IsTokens rest others) :
      IsTokens (s ++ rest) (data ++ others)

/-- No token begins the bytes. -/
def NoToken (raw : Bytes) : Prop := ∀ s data, IsToken s data → ¬ s <+: raw

/-! ## Digits and letters -/

theorem toNat_digitChar : ∀ v < 16,
    (Nat.digitChar v).toNat = if v < 10 then 48 + v else 87 + v := by decide

theorem toNat_toUpper_digitChar : ∀ v < 16,
    (Nat.digitChar v).toUpper.toNat = if v < 10 then 48 + v else 55 + v := by decide

theorem isDigit_iff {v : Nat} {d : UInt8} : IsDigit v d ↔
    v < 10 ∧ d.toNat = 48 + v ∨ 10 ≤ v ∧ v < 16 ∧ (d.toNat = 87 + v ∨ d.toNat = 55 + v) := by
  unfold IsDigit
  constructor
  · rintro ⟨lt, char⟩
    rw [toNat_digitChar v lt, toNat_toUpper_digitChar v lt] at char
    split_ifs at char <;> omega
  · intro h
    have lt : v < 16 := by omega
    rw [toNat_digitChar v lt, toNat_toUpper_digitChar v lt]
    split_ifs <;> omega

theorem hexValue?_eq_some_iff {d : UInt8} {v : Nat} : hexValue? d = some v ↔ IsDigit v d := by
  rw [isDigit_iff]
  simp only [hexValue?]
  split_ifs <;> simp <;> omega

theorem value_lt_of_isDigit {v3 v2 v1 v0 : Nat} {d3 d2 d1 d0 : UInt8} (h3 : IsDigit v3 d3)
    (h2 : IsDigit v2 d2) (h1 : IsDigit v1 d1) (h0 : IsDigit v0 d0) :
    v3 * 0x1000 + v2 * 0x100 + v1 * 0x10 + v0 < 0x10000 := by
  have lt3 : v3 < 16 := h3.1
  have lt2 : v2 < 16 := h2.1
  have lt1 : v1 < 16 := h1.1
  have lt0 : v0 < 16 := h0.1
  omega

theorem unitOfDigits?_eq_some_iff {d3 d2 d1 d0 : UInt8} {u : CodeUnit} :
    unitOfDigits? d3 d2 d1 d0 = some u ↔ ∃ v3 v2 v1 v0, IsDigit v3 d3 ∧ IsDigit v2 d2 ∧
      IsDigit v1 d1 ∧ IsDigit v0 d0 ∧ v3 * 0x1000 + v2 * 0x100 + v1 * 0x10 + v0 = u.toNat := by
  simp only [← hexValue?_eq_some_iff]
  constructor
  · intro h
    unfold unitOfDigits? at h
    split at h
    · next v3 v2 v1 v0 h3 h2 h1 h0 =>
      refine ⟨v3, v2, v1, v0, h3, h2, h1, h0, ?_⟩
      rw [hexValue?_eq_some_iff] at h3 h2 h1 h0
      rw [← Option.some.inj h]
      exact (UInt16.toNat_ofNat_of_lt (value_lt_of_isDigit h3 h2 h1 h0)).symm
    · cases h
  · rintro ⟨v3, v2, v1, v0, h3, h2, h1, h0, value⟩
    simp only [unitOfDigits?, h3, h2, h1, h0, Option.some.injEq]
    rw [value]
    exact UInt16.ofNat_toNat

/-! ## One token -/

theorem isToken_control {letter c : UInt8} (known : controlOf? letter = some c) :
    IsToken [backslash, letter] [c] := by
  unfold controlOf? at known
  split_ifs at known with isT isN isR isF
  · obtain rfl := Option.some.inj known
    rw [isT]
    exact .tab
  · obtain rfl := Option.some.inj known
    rw [isN]
    exact .lineFeed
  · obtain rfl := Option.some.inj known
    rw [isR]
    exact .carriageReturn
  · obtain rfl := Option.some.inj known
    rw [isF]
    exact .formFeed

/-- The tokens of the grammar are those that the reader knows. -/
theorem isToken_iff {s data : Bytes} :
    IsToken s data ↔ ∃ token : Token, token.Spells s ∧ token.bytes = data := by
  constructor
  · intro h
    cases h with
    | @plain b other => exact ⟨.plain b, .plain other, rfl⟩
    | tab => exact ⟨.control 0x09, .control rfl, rfl⟩
    | lineFeed => exact ⟨.control 0x0A, .control rfl, rfl⟩
    | carriageReturn => exact ⟨.control 0x0D, .control rfl, rfl⟩
    | formFeed => exact ⟨.control 0x0C, .control rfl, rfl⟩
    | @unit v3 v2 v1 v0 d3 d2 d1 d0 data h3 h2 h1 h0 encoded =>
      obtain ⟨u, value⟩ : ∃ u : CodeUnit, v3 * 0x1000 + v2 * 0x100 + v1 * 0x10 + v0 = u.toNat :=
        ⟨_, (UInt16.toNat_ofNat_of_lt (value_lt_of_isDigit h3 h2 h1 h0)).symm⟩
      rw [value, encodeUnit?_toNat, Except.ok.injEq] at encoded
      have digits := unitOfDigits?_eq_some_iff.2 ⟨v3, v2, v1, v0, h3, h2, h1, h0, value⟩
      exact ⟨.unit u, .unit digits, encoded⟩
  · rintro ⟨token, spells, rfl⟩
    cases spells with
    | plain other => exact .plain other
    | control known => exact isToken_control known
    | @unit d3 d2 d1 d0 u digits =>
      obtain ⟨v3, v2, v1, v0, h3, h2, h1, h0, value⟩ := unitOfDigits?_eq_some_iff.1 digits
      apply IsToken.unit h3 h2 h1 h0
      rw [value]
      exact encodeUnit?_toNat u

theorem isTokens_iff {raw data : Bytes} :
    IsTokens raw data ↔ ∃ tokens, Spelled tokens raw ∧ tokens.flatMap Token.bytes = data := by
  constructor
  · intro h
    induction h with
    | nil => exact ⟨[], .nil, rfl⟩
    | append front _ ih =>
      obtain ⟨token, spells, rfl⟩ := isToken_iff.1 front
      obtain ⟨tokens, spelled, rfl⟩ := ih
      exact ⟨token :: tokens, .cons spells spelled, List.flatMap_cons⟩
  · rintro ⟨tokens, spelled, rfl⟩
    induction spelled with
    | nil => exact .nil
    | cons front _ ih =>
      rw [List.flatMap_cons]
      exact .append (isToken_iff.2 ⟨_, front, rfl⟩) ih

/-! ## Where no token begins -/

theorem IsToken.ne_nil {s data : Bytes} (h : IsToken s data) : s ≠ [] := by
  cases h <;> simp

theorem NoToken.head_eq {b : UInt8} {rest : Bytes} (stuck : NoToken (b :: rest)) : b = backslash := by
  by_contra other
  apply stuck [b] [b] (.plain other)
  exact ⟨rest, rfl⟩

/-- Bytes are tokens, or tokens lead up to a backslash at which none begins. -/
theorem exists_spelled_front (raw : Bytes) : (∃ tokens, Spelled tokens raw) ∨
    ∃ tokens front rest, raw = front ++ backslash :: rest ∧ Spelled tokens front ∧
      NoToken (backslash :: rest) := by
  -- by the number of bytes: what follows a first token has fewer
  induction size : raw.length using Nat.strongRecOn generalizing raw with
  | _ n ih =>
    by_cases stuck : NoToken raw
    · cases raw with
      | nil => exact Or.inl ⟨[], .nil⟩
      | cons b rest =>
        obtain rfl := stuck.head_eq
        exact Or.inr ⟨[], [], rest, rfl, .nil, stuck⟩
    · simp only [NoToken, not_forall, not_not] at stuck
      obtain ⟨s, data, isToken, others, rfl⟩ := stuck
      have pos := List.length_pos_iff.2 isToken.ne_nil
      obtain ⟨token, spells, -⟩ := isToken_iff.1 isToken
      have shorter : others.length < n := by
        rw [List.length_append] at size
        omega
      rcases ih _ shorter others rfl with ⟨tokens, spelled⟩ | ⟨tokens, front, rest, rfl, spelled, stuck⟩
      · exact Or.inl ⟨token :: tokens, .cons spells spelled⟩
      · refine Or.inr ⟨token :: tokens, s ++ front, rest, ?_, .cons spells spelled, stuck⟩
        rw [List.append_assoc]

/-- How an escape at an offset is refused, with the bytes from there on that were looked at. -/
def escapeFault (offset : Nat) (rest : Bytes) : Fault :=
  if rest[1]? = some letterU then .malformedEscape offset (rest.take 6)
  else .unknownEscape offset (rest.take 2)

theorem NoToken.tokensFrom_eq {raw : Bytes} (stuck : NoToken raw) (nonempty : raw ≠ [])
    (offset : Nat) : tokensFrom offset raw = .error (escapeFault offset raw) := by
  -- where the reader goes on, it has found a token; its other cases are the two refusals
  fun_cases tokensFrom offset raw with
  | case1 => exact absurd rfl nonempty
  | case2 b rest other => exact absurd stuck.head_eq other
  | case3 => rfl
  | case4 b isBackslash d3 d2 d1 d0 others u digits =>
    rw [not_not.1 isBackslash] at stuck
    exact absurd ⟨others, rfl⟩ (stuck _ _ (isToken_iff.2 ⟨_, .unit digits, rfl⟩))
  | case5 => rfl
  | case6 b isBackslash digits short =>
    match digits, short with
    | [], _ | [_], _ | [_, _], _ | [_, _, _], _ => rfl
    | d3 :: d2 :: d1 :: d0 :: others, short => exact absurd rfl (short d3 d2 d1 d0 others)
  | case7 b isBackslash letter rest other c known =>
    rw [not_not.1 isBackslash] at stuck
    exact absurd ⟨rest, rfl⟩ (stuck _ _ (isToken_control known))
  | case8 b isBackslash letter rest other =>
    rw [escapeFault, if_neg]
    · rfl
    · simpa using other

/-! ## Reading -/

theorem tokensFrom_eq_error_iff {offset : Nat} {raw : Bytes} {fault : Fault} :
    tokensFrom offset raw = .error fault ↔ ∃ tokens front rest, raw = front ++ backslash :: rest ∧
      Spelled tokens front ∧ NoToken (backslash :: rest) ∧
      fault = escapeFault (offset + front.length) (backslash :: rest) := by
  have refused {tokens : List Token} {front rest : Bytes} (spelled : Spelled tokens front)
      (stuck : NoToken (backslash :: rest)) : tokensFrom offset (front ++ backslash :: rest) =
        .error (escapeFault (offset + front.length) (backslash :: rest)) := by
    rw [spelled.tokensFrom_behind, stuck.tokensFrom_eq (List.cons_ne_nil _ _)]
    rfl
  constructor
  · intro read
    rcases exists_spelled_front raw with ⟨tokens, spelled⟩ | ⟨tokens, front, rest, rfl, spelled, stuck⟩
    · rw [spelled.tokensFrom_eq] at read
      cases read
    · rw [refused spelled stuck, Except.error.injEq] at read
      exact ⟨tokens, front, rest, rfl, spelled, stuck, read.symm⟩
  · rintro ⟨tokens, front, rest, rfl, spelled, stuck, rfl⟩
    exact refused spelled stuck

/-- `unquote` accepts exactly what tokens spell up to the first zero byte, and refuses the first
backslash without one. -/
theorem unquote_eq_iff (raw : Bytes) :
    (∀ data, unquote raw = .ok data ↔ IsTokens (beforeNul raw) data) ∧
    (∀ fault, unquote raw = .error fault ↔ ∃ front data rest,
      beforeNul raw = front ++ backslash :: rest ∧ IsTokens front data ∧
        NoToken (backslash :: rest) ∧ fault = escapeFault front.length (backslash :: rest)) ∧
    (tokensFrom 0 (beforeNul raw)).map (totalSize Token.size) = (unquote raw).map List.length := by
  refine ⟨fun data => ?_, fun fault => ?_, ?_⟩
  · rw [unquote_eq, map_eq_ok_iff, isTokens_iff]
    simp only [tokensFrom_eq_ok_iff]
  · rw [unquote_eq, map_eq_error_iff, tokensFrom_eq_error_iff]
    simp only [isTokens_iff, Nat.zero_add]
    constructor
    · rintro ⟨tokens, front, rest, split, spelled, stuck, same⟩
      exact ⟨front, _, rest, split, ⟨tokens, spelled, rfl⟩, stuck, same⟩
    · rintro ⟨front, _, rest, split, ⟨tokens, spelled, rfl⟩, stuck, same⟩
      exact ⟨tokens, front, rest, split, spelled, stuck, same⟩
  · rw [unquote_eq]
    cases tokensFrom 0 (beforeNul raw) with
    | error fault => rfl
    | ok tokens =>
      simp only [Except.map, Except.ok.injEq]
      exact (length_flatMap_eq_totalSize Token.length_bytes tokens).symm

/-- An escape that the end cuts off, behind a tab and before a zero byte. -/
example : unquote [0x5C, 0x74, 0x5C, 0x75, 0x30, 0x30, 0x45, 0x00, 0x39] =
    .error (.malformedEscape 2 [0x5C, 0x75, 0x30, 0x30, 0x45]) := by decide

end Quoted

end ModifiedUtf8
