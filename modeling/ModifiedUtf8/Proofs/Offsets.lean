import ModifiedUtf8.Proofs.Boundaries

/-!
# Scans by offsets

A scan can also be made by a loop that reads at an offset and goes on behind what it has read, until
it comes to the end of the bytes.  `ReadsFrom` lists the runs of such a loop.  From every position
there is one run and no other (`readsFrom_scan`, `ReadsFrom.unique`): it finds what a scan of the
bytes from there on finds.

A reader of units or of characters finds at an offset what it finds at the front of the bytes from there
on (`decodeUnitAt_of_drop`, `decodeCharacterAt_of_drop`).
-/

namespace ModifiedUtf8

/-- A run of the loop that reads at a position, goes on behind what it has read, and ends where no
byte before `stop` is left. -/
inductive ReadsFrom {α : Type} (readAt : Int → Except Fault (Decoded α)) (stop : Nat) :
    Nat → List (Decoded α) → Prop where
  | done {position : Nat} (reached : stop ≤ position) : ReadsFrom readAt stop position []
  | next {position : Nat} {d : Decoded α} {others : List (Decoded α)} (before : position < stop)
      (read : readAt position = .ok d) (behind : ReadsFrom readAt stop (position + d.size) others) :
      ReadsFrom readAt stop position (d :: others)

section Loop

variable {α : Type} {readAt : Int → Except Fault (Decoded α)}

theorem ReadsFrom.unique {stop position : Nat} {items items' : List (Decoded α)}
    (h : ReadsFrom readAt stop position items) (h' : ReadsFrom readAt stop position items') :
    items = items' := by
  induction h generalizing items' with
  | done reached =>
    cases h' with
    | done => rfl
    | next before => exact absurd before (Nat.not_lt.2 reached)
  | next before read _ ih =>
    cases h' with
    | done reached => exact absurd before (Nat.not_lt.2 reached)
    | next _ read' behind =>
      obtain rfl := Except.ok.inj (read.symm.trans read')
      rw [ih behind]

/-- A reader at offsets that agrees with one at the front makes the loop of its scan. -/
theorem readsFrom_scan {read : UInt8 → Bytes → Decoded α} {data : Bytes}
    (size_pos : ∀ lead rest, 0 < (read lead rest).size)
    (agree : ∀ (position : Nat) lead rest, data.drop position = lead :: rest →
      readAt position = .ok (read lead rest)) (position : Nat) :
    ReadsFrom readAt data.length position (scan read (data.drop position)) := by
  -- along the scan of what is left, wherever that begins
  generalize left : data.drop position = suffix
  induction suffix using scan_induction read generalizing position with
  | nil =>
    apply ReadsFrom.done
    exact List.drop_eq_nil_iff.1 left
  | cons lead rest ih =>
    have before : position < data.length := by
      have size := congrArg List.length left
      simp at size
      omega
    rw [scan_cons]
    apply ReadsFrom.next before (agree position lead rest left)
    apply ih
    have pos := size_pos lead rest
    rw [← List.drop_drop, left]
    obtain ⟨k, size⟩ := Nat.exists_eq_succ_of_ne_zero (Nat.ne_of_gt pos)
    simp [size]

end Loop

/-! ## Units -/

theorem decodeUnitAt_of_drop {w : Width} {data : Bytes} {position : Nat} {lead : UInt8} {rest : Bytes}
    (h : data.drop position = lead :: rest) :
    decodeUnitAt w data position = .ok (decodeUnit w lead rest) := by
  simp [decodeUnitAt, Bytes.suffixFrom_natCast, h]

theorem readsFrom_decodeUnitAt (w : Width) (data : Bytes) (position : Nat) :
    ReadsFrom (decodeUnitAt w data) data.length position (scanUnits w (data.drop position)) :=
  readsFrom_scan (decodeUnit_size_pos w) (fun _ _ _ h => decodeUnitAt_of_drop h) position

theorem readsFrom_take (w : Width) {data : Bytes} {n : Nat} (le : n ≤ data.length) :
    ReadsFrom (decodeUnitAt w (data.take n)) n 0 (scanUnits w (data.take n)) := by
  have run := readsFrom_decodeUnitAt w (data.take n) 0
  rwa [List.length_take_of_le le, List.drop_zero] at run

theorem map_store_scanUnits (data : Bytes) :
    ((scanUnits .wide data).map fun d => (d.value.toNat : Int)).map Width.wide.store =
      unitsOf .wide data := by
  simp [unitsOf, Function.comp_def]

/-! ## Characters -/

theorem Bytes.byteAt?_add (data : Bytes) (position k : Nat) :
    data.byteAt? (position + k) = (data.drop position)[k]? := by
  rw [byteAt?, if_pos (by omega), List.getElem?_drop]
  rfl

theorem isPairAt_of_drop {data : Bytes} {position : Nat} {lead : UInt8} {rest : Bytes}
    (h : data.drop position = lead :: rest) :
    isPairAt data position = .ok (startsWithPair (lead :: rest)) := by
  unfold isPairAt
  split
  · next short =>
    have size := congrArg List.length h
    rw [List.length_drop] at size
    have single : startsWithPair (lead :: rest) = false := by
      rw [Bool.eq_false_iff]
      intro pair
      obtain ⟨_, _, _, _, more, e, -⟩ := (startsWithPair_iff _).1 pair
      rw [e] at size
      simp only [List.length_cons] at size
      omega
    rw [single]
  · rw [Bytes.suffixFrom_natCast, h]

theorem pairValueAt_of_drop {data : Bytes} {position : Nat} {b0 b1 b2 b3 b4 b5 : UInt8} {rest : Bytes}
    (h : data.drop position = b0 :: b1 :: b2 :: b3 :: b4 :: b5 :: rest) :
    pairValueAt data position = .ok (pairValue b1 b2 b4 b5) := by
  have read (k : Nat) {b : UInt8} (found : (data.drop position)[k]? = some b) :
      data.byteAt? (position + k) = some b := by
    rw [Bytes.byteAt?_add, found]
  rw [h] at read
  have at1 : data.byteAt? (position + 1) = some b1 := read 1 rfl
  have at2 : data.byteAt? (position + 2) = some b2 := read 2 rfl
  have at4 : data.byteAt? (position + 4) = some b4 := read 4 rfl
  have at5 : data.byteAt? (position + 5) = some b5 := read 5 rfl
  simp only [pairValueAt, at1, at2, at4, at5]

theorem decodeCharacterAt_of_drop {data : Bytes} {position : Nat} {lead : UInt8} {rest : Bytes}
    (h : data.drop position = lead :: rest) :
    decodeCharacterAt data position = .ok (decodeCharacter lead rest) := by
  unfold decodeCharacterAt
  rw [isPairAt_of_drop h]
  rcases decodeCharacter_cases lead rest with
    ⟨b1, b2, b4, b5, more, rfl, rfl, second, third, fifth, last, e⟩ | ⟨single, e⟩
  · have pair := (startsWithPair_iff _).2 ⟨b1, b2, b4, b5, more, rfl, second, third, fifth, last⟩
    rw [pair, e]
    simp only [pairValueAt_of_drop h]
    rfl
  · rw [single, e]
    simp only [decodeUnitAt_of_drop h]
    rfl

end ModifiedUtf8
