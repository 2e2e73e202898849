import Mathlib.Data.List.TakeDrop
import Mathlib.Data.List.TakeWhile
import ModifiedUtf8.Quoted
import ModifiedUtf8.Proofs.Writing

/-!
# Reading tokens

`tokensFrom` succeeds exactly on concatenations of spelled tokens (`tokensFrom_eq_ok_iff`), so
facts about what was read are inductions over `Spelled`.  The two passes agree on the size of every
token (`Token.length_bytes`), hence a reader of quoted-ascii fails only where no token begins
(`unquote_eq`), and from ASCII it makes the encoding of a list of units
(`Spelled.exists_encodeUnits`).  Of texts it reads those that are ASCII (`unquoteText_eq_ok_iff`).
-/

namespace ModifiedUtf8

/-! ## Texts in a charset -/

namespace Text

section EncodeWith

variable {bytes? : CodePoint → Option Bytes} {fault : CodePoint → Nat → Nat → Fault} {text : Text}

theorem encodeWith_of_forall (all : ∀ c ∈ text, (bytes? c).isSome = true) :
    encodeWith bytes? fault text = .ok (text.flatMap fun c => (bytes? c).getD []) := by
  rw [encodeWith, List.dropWhile_eq_nil_iff.2 all]

theorem encodeWith_eq_ok_iff {data : Bytes} : encodeWith bytes? fault text = .ok data ↔
    (∀ c ∈ text, (bytes? c).isSome = true) ∧
      (text.flatMap fun c => (bytes? c).getD []) = data := by
  constructor
  · intro encoded
    have all : ∀ c ∈ text, (bytes? c).isSome = true := by
      rw [← List.dropWhile_eq_nil_iff]
      unfold encodeWith at encoded
      split at encoded
      · assumption
      · cases encoded
    rw [encodeWith_of_forall all] at encoded
    exact ⟨all, Except.ok.inj encoded⟩
  · rintro ⟨all, rfl⟩
    exact encodeWith_of_forall all

/-- What follows a refused text changes the report only if it prolongs the run. -/
theorem encodeWith_append {front back : Text} (refused : ∃ c ∈ front, bytes? c = none)
    (next : ∀ c ∈ back.head?, (bytes? c).isSome = true) :
    encodeWith bytes? fault (front ++ back) = encodeWith bytes? fault front := by
  have ends : back.takeWhile (fun c => (bytes? c).isNone) = [] := by
    cases back with
    | nil => rfl
    | cons d back =>
      have known : bytes? d ≠ none := Option.isSome_iff_ne_none.1 (next d rfl)
      exact List.takeWhile_cons_of_neg (by simpa using known)
  unfold encodeWith
  rw [List.dropWhile_append]
  cases found : front.dropWhile (fun c => (bytes? c).isSome) with
  | nil =>
    obtain ⟨c, mem, none⟩ := refused
    have some := List.dropWhile_eq_nil_iff.1 found c mem
    rw [none] at some
    cases some
  | cons c rest =>
    have run : (c :: (rest ++ back)).takeWhile (fun d => (bytes? d).isNone) =
        (c :: rest).takeWhile fun d => (bytes? d).isNone := by
      rw [← List.cons_append, List.takeWhile_append, ends, List.append_nil]
      split
      · next whole => exact (List.IsPrefix.eq_of_length (List.takeWhile_prefix _) whole).symm
      · rfl
    have start : (front ++ back).length - (c :: (rest ++ back)).length =
        front.length - (c :: rest).length := by
      simp only [List.length_append, List.length_cons]
      omega
    simp only [List.isEmpty_cons, Bool.false_eq_true, if_false, List.cons_append, run, start]

end EncodeWith

theorem ascii?_ofBytes {raw : Bytes} (h : ∀ b ∈ raw, b.toNat < 0x80) :
    (Text.ofBytes raw).ascii? = .ok raw := by
  have small (b : UInt8) (mem : b ∈ raw) : (CodePoint.ofByte b).val < 0x80 := h b mem
  rw [ascii?, encodeWith_eq_ok_iff, Text.ofBytes, List.forall_mem_map, List.flatMap_map]
  constructor
  · intro b mem
    rw [if_pos (small b mem)]
    rfl
  · induction raw with
    | nil => rfl
    | cons b raw ih =>
      rw [List.forall_mem_cons] at h
      rw [List.flatMap_cons, if_pos (small b List.mem_cons_self),
        ih h.2 fun c mem => small c (List.mem_cons_of_mem b mem)]
      exact congrArg (· :: raw) (UInt8.ofNat_toNat)

theorem ascii?_eq_ok_iff {text : Text} {raw : Bytes} :
    text.ascii? = .ok raw ↔ text = Text.ofBytes raw ∧ ∀ b ∈ raw, b.toNat < 0x80 := by
  constructor
  · intro read
    have small : ∀ c ∈ text, c.val < 0x80 := by
      have all := (encodeWith_eq_ok_iff.1 read).1
      intro c mem
      by_contra large
      have none := all c mem
      rw [if_neg large] at none
      cases none
    have kept (c : CodePoint) (mem : c ∈ text) : (UInt8.ofNat c.val).toNat = c.val :=
      UInt8.toNat_ofNat_of_lt' (Nat.lt_trans (small c mem) (by decide))
    have same : text = Text.ofBytes (text.map fun c => UInt8.ofNat c.val) := by
      rw [Text.ofBytes, List.map_map, List.map_congr_left fun c mem => Fin.ext (kept c mem),
        List.map_id']
    have ascii : ∀ b ∈ text.map fun c => UInt8.ofNat c.val, b.toNat < 0x80 := by
      rw [List.forall_mem_map]
      intro c mem
      rw [kept c mem]
      exact small c mem
    rw [same, ascii?_ofBytes ascii] at read
    rw [← Except.ok.inj read]
    exact ⟨same, ascii⟩
  · rintro ⟨rfl, ascii⟩
    exact ascii?_ofBytes ascii

end Text

namespace Quoted

/-- The bytes spell the tokens, one after another. -/
inductive Spelled : List Token → Bytes → Prop where
  | nil : Spelled [] []
  | cons {token : Token} {s : Bytes} {tokens : List Token} {rest : Bytes}
      (front : token.Spells s) (back : Spelled tokens rest) : Spelled (token :: tokens) (s ++ rest)

/-! ## Tokens -/

theorem map_eq_ok_iff {α β : Type} {f : α → β} {x : Except Fault α} {y : β} :
    x.map f = .ok y ↔ ∃ a, x = .ok a ∧ f a = y := by
  cases x <;> simp [Except.map]

theorem map_eq_error_iff {α β : Type} {f : α → β} {x : Except Fault α} {fault : Fault} :
    x.map f = .error fault ↔ x = .error fault := by
  cases x <;> simp [Except.map]

theorem ne_letterU_of_controlOf? {letter b : UInt8} (h : controlOf? letter = some b) :
    letter ≠ letterU := by
  rintro rfl
  cases h

/-- A token at the front is read, and reading goes on behind it. -/
theorem tokensFrom_append {token : Token} {s : Bytes} (h : token.Spells s) (offset : Nat)
    (rest : Bytes) :
    tokensFrom offset (s ++ rest) =
      (tokensFrom (offset + s.length) rest).map (token :: ·) := by
  cases h with
  | plain other =>
    rw [List.singleton_append, tokensFrom.eq_def]
    exact if_pos other
  | control known =>
    rw [List.cons_append, List.singleton_append, tokensFrom.eq_def]
    simp [ne_letterU_of_controlOf? known, known]
  | unit digits =>
    rw [tokensFrom.eq_def]
    simp [digits]

theorem Spelled.tokensFrom_behind {tokens : List Token} {front : Bytes} (h : Spelled tokens front)
    (offset : Nat) (rest : Bytes) : tokensFrom offset (front ++ rest) =
      (tokensFrom (offset + front.length) rest).map (tokens ++ ·) := by
  induction h generalizing offset with
  | nil =>
    rw [List.nil_append, List.length_nil, Nat.add_zero]
    cases tokensFrom offset rest <;> rfl
  | @cons token s tokens others front _ ih =>
    rw [List.append_assoc, tokensFrom_append front, ih, List.length_append, Nat.add_assoc]
    cases tokensFrom (offset + (s.length + others.length)) rest <;> rfl

theorem Spelled.tokensFrom_eq {tokens : List Token} {raw : Bytes} (h : Spelled tokens raw)
    (offset : Nat) : tokensFrom offset raw = .ok tokens := by
  have read := h.tokensFrom_behind offset []
  rw [List.append_nil] at read
  simpa [tokensFrom, Except.map] using read

/-- `tokensFrom` succeeds exactly on what tokens spell. -/
theorem tokensFrom_eq_ok_iff {offset : Nat} {raw : Bytes} {tokens : List Token} :
    tokensFrom offset raw = .ok tokens ↔ Spelled tokens raw := by
  refine ⟨fun read => ?_, fun spelled => spelled.tokensFrom_eq offset⟩
  fun_induction tokensFrom offset raw generalizing tokens with
  | case1 =>
    cases read
    exact .nil
  | case2 offset b rest other ih =>
    obtain ⟨more, tail, rfl⟩ := map_eq_ok_iff.1 read
    exact .cons (.plain other) (ih tail)
  | case4 offset b isBackslash d3 d2 d1 d0 others u digits ih =>
    obtain ⟨more, tail, rfl⟩ := map_eq_ok_iff.1 read
    rw [not_not.1 isBackslash]
    exact .cons (.unit digits) (ih tail)
  | case7 offset b isBackslash letter digits other c known ih =>
    obtain ⟨more, tail, rfl⟩ := map_eq_ok_iff.1 read
    rw [not_not.1 isBackslash]
    exact .cons (.control known) (ih tail)
  | _ => cases read

/-! ## Measuring and writing -/

theorem Token.length_bytes (token : Token) : token.bytes.length = token.size := by
  cases token with
  | plain b => rfl
  | control b => rfl
  | unit u =>
    rw [Token.bytes, Token.size, ← length_encodeUnit_store, Width.wide_store_toNat]

/-- The passes agree, so reading fails only where no token begins. -/
theorem unquote_eq (raw : Bytes) : unquote raw =
    (tokensFrom 0 (beforeNul raw)).map fun tokens => tokens.flatMap Token.bytes := by
  rw [unquote]
  cases tokensFrom 0 (beforeNul raw) with
  | error fault => rfl
  | ok tokens =>
    have exact : (tokens.flatMap Token.bytes).length = totalSize Token.size tokens :=
      length_flatMap_eq_totalSize Token.length_bytes tokens
    simp only [← exact, storeBytes_zeros]
    rfl

theorem beforeNul_eq_self {raw : Bytes} (h : ∀ b ∈ raw, b ≠ 0) : beforeNul raw = raw := by
  rw [beforeNul, List.takeWhile_eq_self_iff]
  simpa using h

theorem ascii_beforeNul {raw : Bytes} (ascii : ∀ b ∈ raw, b.toNat < 0x80) :
    ∀ b ∈ beforeNul raw, b ≠ 0 ∧ b.toNat < 0x80 := by
  intro b mem
  constructor
  · simpa using List.mem_takeWhile_imp mem
  · exact ascii b ((List.takeWhile_prefix _).subset mem)

theorem unquoteText_eq_ok_iff {text : Text} {data : Bytes} :
    unquoteText text = .ok data ↔
      ∃ raw, text = Text.ofBytes raw ∧ (∀ b ∈ raw, b.toNat < 0x80) ∧ unquote raw = .ok data := by
  rw [unquoteText]
  constructor
  · intro read
    cases ascii : text.ascii? with
    | error fault =>
      rw [ascii] at read
      cases read
    | ok raw =>
      rw [ascii] at read
      obtain ⟨same, small⟩ := Text.ascii?_eq_ok_iff.1 ascii
      exact ⟨raw, same, small, read⟩
  · rintro ⟨raw, same, small, read⟩
    rw [Text.ascii?_eq_ok_iff.2 ⟨same, small⟩]
    exact read

theorem unquoteText_ofBytes {raw : Bytes} (h : ∀ b ∈ raw, b ≠ 0 ∧ b.toNat < 0x80) :
    unquoteText (Text.ofBytes raw) =
      (tokensFrom 0 raw).map fun tokens => tokens.flatMap Token.bytes := by
  rw [unquoteText, Text.ascii?_ofBytes fun b mem => (h b mem).2]
  show unquote raw = _
  rw [unquote_eq, beforeNul_eq_self fun b mem => (h b mem).1]

/-! ## What was read -/

theorem toNat_of_controlOf? {letter b : UInt8} (h : controlOf? letter = some b) :
    0 < b.toNat ∧ b.toNat < 0x20 := by
  unfold controlOf? at h
  split_ifs at h <;> cases h <;> decide

theorem Token.Spells.exists_encodeUnit {token : Token} {s : Bytes} (h : token.Spells s)
    (ascii : ∀ b ∈ s, b ≠ 0 ∧ b.toNat < 0x80) : ∃ unit, encodeUnit unit = token.bytes := by
  cases h with
  | @plain b other =>
    obtain ⟨nonzero, lt⟩ := ascii b List.mem_cons_self
    have pos : 0 < b.toNat := Nat.pos_of_ne_zero fun zero => nonzero (UInt8.toNat_inj.1 zero)
    exact isSequence_strict_iff.1 (.one pos lt)
  | control known =>
    obtain ⟨pos, lt⟩ := toNat_of_controlOf? known
    exact isSequence_strict_iff.1 (.one pos (by omega))
  | @unit d3 d2 d1 d0 u digits => exact ⟨u, rfl⟩

theorem Spelled.exists_encodeUnits {tokens : List Token} {raw : Bytes} (h : Spelled tokens raw)
    (ascii : ∀ b ∈ raw, b ≠ 0 ∧ b.toNat < 0x80) :
    ∃ units, encodeUnits units = tokens.flatMap Token.bytes := by
  induction h with
  | nil => exact ⟨[], rfl⟩
  | cons front _ ih =>
    rw [List.forall_mem_append] at ascii
    obtain ⟨unit, first⟩ := front.exists_encodeUnit ascii.1
    obtain ⟨units, others⟩ := ih ascii.2
    refine ⟨unit :: units, ?_⟩
    rw [encodeUnits_cons, first, others, List.flatMap_cons]

end Quoted

end ModifiedUtf8
