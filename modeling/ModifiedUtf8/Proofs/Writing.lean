import Mathlib.Data.Int.Bitwise
import ModifiedUtf8.Conversion
import ModifiedUtf8.Proofs.Sequence

/-!
# Writing units

`encodedSize` predicts the size of a unit exactly (`length_encodeUnit_store`).  A store of bytes with room
for them puts them over those that were there (`storeBytes_append`), so by induction over the units each
writer has a closed form: `storeFitting_append` for a bounded one, which keeps the longest part that fits
(`fitting`), and `storeUnits_append` for one that is not, which may run out of buffer.

Encoding into a buffer of the predicted size therefore never fails its check (`encodeMeasured_eq`), and
all three ways to write give the same bytes (`encodeMeasured_eq_flatten`).
-/

namespace ModifiedUtf8

/-! ## Sizes -/

theorem encodedSize_le (w : Width) (unit : Int) : encodedSize w unit ≤ 3 := by
  simp only [encodedSize]
  split
  · decide
  · split <;> decide

theorem encodedSize_pos (w : Width) (unit : Int) : 0 < encodedSize w unit := by
  simp only [encodedSize]
  split
  · decide
  · split <;> decide

theorem length_encodeUnit_store (w : Width) (unit : Int) :
    (encodeUnit (w.store unit)).length = encodedSize w unit := by
  have bound := w.toNat_store_lt unit
  unfold encodedSize
  generalize w.store unit = u at bound ⊢
  by_cases one : 0 < u.toNat ∧ u.toNat ≤ 0x7F
  · rw [encodeUnit_one one.1 (by omega), if_pos one]
    rfl
  rw [if_neg one]
  by_cases two : u.toNat ≤ 0x7FF
  · rw [encodeUnit_two (by omega) two, if_pos (Or.inr two)]
    rfl
  · rw [encodeUnit_three (by omega), if_neg]
    · rfl
    · rintro (rfl | le)
      · rw [Width.narrow_bound] at bound
        omega
      · exact two le

theorem length_encodeStored (w : Width) (units : List Int) :
    (encodeStored w units).length = encodedLength w units := by
  rw [encodeStored, encodeUnits, List.flatMap_map]
  exact length_flatMap_eq_totalSize (length_encodeUnit_store w) units

theorem encodeStored_wide_toNat (units : List CodeUnit) :
    encodeStored .wide (units.map fun unit => (unit.toNat : Int)) = encodeUnits units := by
  have kept : (Width.wide.store ∘ fun unit : CodeUnit => (unit.toNat : Int)) = id :=
    funext Width.wide_store_toNat
  rw [encodeStored, List.map_map, kept, List.map_id]

/-! ## Room in a buffer -/

/-- The longest leading part of a list whose total size leaves at least one byte of the room. -/
def fitting {α : Type} (size : α → Nat) : Nat → List α → List α
  | _, [] => []
  | room, x :: rest => if size x < room then x :: fitting size (room - size x) rest else []

section Fitting

variable {α : Type} (size : α → Nat)

theorem totalSize_append (front back : List α) :
    totalSize size (front ++ back) = totalSize size front + totalSize size back := by
  induction front with
  | nil => rw [List.nil_append, totalSize_nil, Nat.zero_add]
  | cons x front ih => rw [List.cons_append, totalSize_cons, totalSize_cons, ih, Nat.add_assoc]

theorem totalSize_fitting_lt {room : Nat} (h : 0 < room) (items : List α) :
    totalSize size (fitting size room items) < room := by
  induction items generalizing room with
  | nil => exact h
  | cons x rest ih =>
    unfold fitting
    split
    · next fits =>
      have left : 0 < room - size x := by omega
      have := ih left
      rw [totalSize_cons]
      omega
    · exact h

theorem fitting_prefix (room : Nat) (items : List α) : fitting size room items <+: items := by
  induction items generalizing room with
  | nil => exact List.nil_prefix
  | cons x rest ih =>
    unfold fitting
    split
    · exact (List.prefix_cons_inj x).2 (ih (room - size x))
    · exact List.nil_prefix

theorem length_fitting_eq_iff (pos : ∀ x, 0 < size x) (room : Nat) (items : List α) :
    (fitting size room items).length = items.length ↔
      totalSize size (fitting size room items) = totalSize size items := by
  obtain ⟨left, split⟩ := fitting_prefix size room items
  generalize fitting size room items = kept at split ⊢
  rw [← split, totalSize_append, List.length_append]
  cases left with
  | nil => simp
  | cons x left =>
    have := pos x
    rw [List.length_cons, totalSize_cons]
    omega

theorem fitting_of_totalSize_lt {room : Nat} {items : List α} (h : totalSize size items < room) :
    fitting size room items = items := by
  induction items generalizing room with
  | nil => rfl
  | cons x rest ih =>
    rw [totalSize_cons] at h
    rw [fitting, if_pos (by omega), ih (by omega)]

end Fitting

theorem capacityOf_bounds {capacity : Size} {buffer : Bytes} {room : Nat}
    (h : capacity.capacityOf buffer = .ok room) : 0 < room ∧ room ≤ buffer.length := by
  unfold Size.capacityOf at h
  split at h
  · split at h
    · cases h
    · cases h
      omega
  · split at h
    · cases h
    split at h
    · cases h
    · cases h
      omega
  · cases h

theorem capacityOf_zeros (size : Nat) :
    Size.whole.capacityOf (zeros (size + 1)) = .ok (size + 1) := by
  rw [Size.capacityOf_whole (by simp [zeros])]
  simp [zeros]

/-! ## Stores -/

/-- Stored bytes take the place of as many behind the position. -/
theorem storeBytes_append (front : Bytes) {back data : Bytes} (room : data.length ≤ back.length) :
    storeBytes (front ++ back) front.length data =
      ⟨front ++ data ++ back.drop data.length, [], .ok (front.length + data.length)⟩ := by
  induction data generalizing front back with
  | nil => simp [storeBytes]
  | cons b data ih =>
    cases back with
    | nil => cases room
    | cons c back =>
      have inside : front.length < (front ++ c :: back).length := by simp
      have step := ih (front ++ [b]) (Nat.le_of_succ_le_succ room)
      rw [List.length_append, List.length_singleton] at step
      rw [storeBytes, if_pos inside, List.set_append_right _ _ (Nat.le_refl _), Nat.sub_self,
        List.set_cons_zero, List.append_cons, step]
      simp [Nat.add_assoc, Nat.add_comm 1]

theorem storeBytes_zeros (data : Bytes) :
    storeBytes (zeros data.length) 0 data = ⟨data, [], .ok data.length⟩ := by
  have size : (zeros data.length).length = data.length := List.length_replicate
  have stored := storeBytes_append [] (Nat.le_of_eq size.symm)
  rw [List.drop_eq_nil_of_le (Nat.le_of_eq size)] at stored
  simpa using stored

/-- Without room for all bytes, those that fit are stored before the refusal. -/
theorem storeBytes_append_of_lt (front : Bytes) {back data : Bytes}
    (short : back.length < data.length) :
    storeBytes (front ++ back) front.length data =
      ⟨front ++ data.take back.length, [], .error .indexOutOfRange⟩ := by
  induction data generalizing front back with
  | nil => cases short
  | cons b data ih =>
    cases back with
    | nil => simp [storeBytes, Outcome.refuse]
    | cons c back =>
      have inside : front.length < (front ++ c :: back).length := by simp
      have step := ih (front ++ [b]) (Nat.lt_of_succ_lt_succ short)
      rw [List.length_append, List.length_singleton] at step
      rw [storeBytes, if_pos inside, List.set_append_right _ _ (Nat.le_refl _), Nat.sub_self,
        List.set_cons_zero, List.append_cons, step]
      simp

theorem terminate_append (front : Bytes) {back : Bytes} (room : 0 < back.length)
    (log : List Notice) : terminate (front ++ back) front.length log =
      ⟨front ++ 0 :: back.drop 1, log, .ok front.length⟩ := by
  cases back with
  | nil => cases room
  | cons c back => simp [terminate]

theorem terminate_append_nil (front : Bytes) (log : List Notice) :
    terminate (front ++ []) front.length log = ⟨front, log, .error .indexOutOfRange⟩ := by
  simp [terminate]

theorem encodeStored_cons (w : Width) (unit : Int) (units : List Int) :
    encodeStored w (unit :: units) = encodeUnit (w.store unit) ++ encodeStored w units := rfl

theorem encodedLength_cons (w : Width) (unit : Int) (units : List Int) :
    encodedLength w (unit :: units) = encodedSize w unit + encodedLength w units := rfl

/-- A bounded writer stores what fits behind the position that it has come to. -/
theorem storeFitting_append (w : Width) (total index : Nat) (front : Bytes) {back : Bytes}
    {room : Nat} (pos : 0 < room) (le : room ≤ back.length) (units : List Int) :
    storeFitting w total index front.length room units (front ++ back) =
      let kept := fitting (encodedSize w) room units
      ⟨front ++ (encodeStored w kept ++ 0 :: back.drop (encodedLength w kept + 1)),
        if kept.length < units.length then [.encodingCut (index + kept.length) total] else [],
        .ok (front.length + encodedLength w kept)⟩ := by
  induction units generalizing index front back room with
  | nil =>
    rw [storeFitting, terminate_append front (Nat.lt_of_lt_of_le pos le)]
    simp [fitting, encodeStored, encodedLength]
  | cons unit rest ih =>
    have size := length_encodeUnit_store w unit
    by_cases fits : encodedSize w unit < room
    · have step : storeFitting w total index front.length room (unit :: rest) (front ++ back) =
          storeFitting w total (index + 1) (front ++ encodeUnit (w.store unit)).length
            (room - encodedSize w unit) rest
            (front ++ encodeUnit (w.store unit) ++ back.drop (encodedSize w unit)) := by
        rw [storeFitting, if_neg (Nat.not_le.2 fits), storeBytes_append front (by omega),
          List.length_append, size]
      have behind : room - encodedSize w unit ≤ (back.drop (encodedSize w unit)).length := by
        rw [List.length_drop]
        omega
      rw [step, ih _ _ (Nat.sub_pos_of_lt fits) behind]
      simp only [fitting, if_pos fits, encodeStored_cons, encodedLength_cons, List.length_cons,
        List.length_append, size, List.drop_drop, List.append_assoc, Nat.add_assoc,
        Nat.add_lt_add_iff_right, Nat.add_comm 1]
    · rw [storeFitting, if_pos (Nat.le_of_not_lt fits),
        terminate_append front (Nat.lt_of_lt_of_le pos le)]
      simp [fitting, if_neg fits, encodeStored, encodedLength]

theorem storeUnits_cons_append (w : Width) (front : Bytes) {back : Bytes} {unit : Int}
    (fits : encodedSize w unit ≤ back.length) (rest : List Int) :
    storeUnits w front.length (unit :: rest) (front ++ back) =
      storeUnits w (front ++ encodeUnit (w.store unit)).length rest
        (front ++ encodeUnit (w.store unit) ++ back.drop (encodedSize w unit)) := by
  have size := length_encodeUnit_store w unit
  rw [storeUnits, storeBytes_append front (by omega), List.length_append, size]

theorem storeUnits_append (w : Width) (front : Bytes) {back : Bytes} {units : List Int}
    (room : encodedLength w units < back.length) :
    storeUnits w front.length units (front ++ back) =
      ⟨front ++ (encodeStored w units ++ 0 :: back.drop (encodedLength w units + 1)), [],
        .ok (front.length + encodedLength w units)⟩ := by
  induction units generalizing front back with
  | nil => exact terminate_append front room []
  | cons unit rest ih =>
    rw [encodedLength_cons] at room
    have later : encodedLength w rest < (back.drop (encodedSize w unit)).length := by
      rw [List.length_drop]
      omega
    rw [storeUnits_cons_append w front (by omega), ih _ later, List.length_append,
      length_encodeUnit_store, encodedLength_cons, encodeStored_cons, List.drop_drop]
    simp only [List.append_assoc, Nat.add_assoc]

/-- A writer that runs out of buffer has stored as many bytes as there was room for. -/
theorem storeUnits_append_of_le (w : Width) (front : Bytes) {back : Bytes} {units : List Int}
    (short : back.length ≤ encodedLength w units) :
    storeUnits w front.length units (front ++ back) =
      ⟨front ++ (encodeStored w units).take back.length, [], .error .indexOutOfRange⟩ := by
  induction units generalizing front back with
  | nil =>
    obtain rfl := List.eq_nil_of_length_eq_zero (Nat.le_zero.1 short)
    rw [storeUnits, terminate_append_nil]
    simp
  | cons unit rest ih =>
    have size := length_encodeUnit_store w unit
    rw [encodedLength_cons] at short
    rw [encodeStored_cons]
    by_cases fits : encodedSize w unit ≤ back.length
    · have later : (back.drop (encodedSize w unit)).length ≤ encodedLength w rest := by
        rw [List.length_drop]
        omega
      rw [storeUnits_cons_append w front fits, ih _ later, List.length_drop, List.append_assoc,
        List.take_append, size, List.take_of_length_le (size.trans_le fits)]
    · rw [storeUnits, storeBytes_append_of_lt front (by omega),
        List.take_append_of_le_length (by omega)]
      rfl

theorem writeUnits_of_capacityOf {w : Width} {units : List Int} {capacity : Size} {buffer : Bytes}
    {room : Nat} (h : capacity.capacityOf buffer = .ok room) :
    writeUnits w units capacity buffer =
      let kept := fitting (encodedSize w) room units
      ⟨encodeStored w kept ++ 0 :: buffer.drop (encodedLength w kept + 1),
        if kept.length < units.length then [.encodingCut kept.length units.length] else [],
        .ok (encodedLength w kept)⟩ := by
  obtain ⟨pos, le⟩ := capacityOf_bounds h
  have run := storeFitting_append w units.length 0 [] pos le units
  rw [List.length_nil, List.nil_append] at run
  rw [writeUnits, h]
  simpa using run

/-- The prediction is right: a buffer of the predicted size takes all units. -/
theorem encodeMeasured_eq (w : Width) (units : List Int) :
    encodeMeasured w units = .ok (encodeStored w units) := by
  have room := capacityOf_zeros (encodedLength w units)
  have all : fitting (encodedSize w) (encodedLength w units + 1) units = units :=
    fitting_of_totalSize_lt _ (Nat.lt_succ_self _)
  unfold encodeMeasured
  simp only [writeUnits_of_capacityOf room, all, if_true]
  rw [← length_encodeStored, List.take_left]

/-! ## Bit masks -/

theorem ldiff_two_pow_sub_one (k n : Nat) : Nat.ldiff (2 ^ k - 1) n = 2 ^ k - (n % 2 ^ k + 1) := by
  have lt : n % 2 ^ k < 2 ^ k := Nat.mod_lt _ (Nat.two_pow_pos k)
  apply Nat.eq_of_testBit_eq
  intro i
  rw [Nat.testBit_ldiff, Nat.testBit_two_pow_sub_one, Nat.testBit_two_pow_sub_succ lt,
    Nat.testBit_mod_two_pow]
  by_cases low : i < k <;> simp [low]

/-- The low bits of an integer are its remainder, for a negative one as well. -/
theorem land_two_pow_sub_one (value : Int) (k : Nat) :
    Int.land value ((2 ^ k - 1 : Nat) : Int) = value % ((2 ^ k : Nat) : Int) := by
  have pos := Nat.two_pow_pos k
  cases value with
  | ofNat n =>
    show ((n &&& (2 ^ k - 1) : Nat) : Int) = (n : Int) % ((2 ^ k : Nat) : Int)
    rw [Nat.and_two_pow_sub_one_eq_mod, Int.natCast_emod]
  | negSucc n =>
    show ((Nat.ldiff (2 ^ k - 1) n : Nat) : Int) = _
    rw [ldiff_two_pow_sub_one, Int.negSucc_emod _ (by omega)]
    have lt : n % 2 ^ k < 2 ^ k := Nat.mod_lt _ pos
    omega

theorem land_mask (w : Width) (value : Int) :
    Int.land value w.mask = (w.store value).toNat := by
  rw [Width.natCast_toNat_store]
  exact land_two_pow_sub_one value w.bits

theorem mapM_encodeUnit?_land (w : Width) (units : List Int) :
    units.mapM (fun unit => encodeUnit? (Int.land unit w.mask)) =
      .ok (units.map fun unit => encodeUnit (w.store unit)) := by
  induction units with
  | nil => rfl
  | cons unit units ih =>
    rw [List.mapM_cons, ih, land_mask, encodeUnit?_toNat]
    rfl

theorem flatten_map_encodeUnit (w : Width) (units : List Int) :
    (units.map fun unit => encodeUnit (w.store unit)).flatten = encodeStored w units := by
  rw [encodeStored, encodeUnits, List.flatMap_map, List.flatMap_def]

/-! ## Three ways to write -/

section Writers

variable {w : Width} {units : List Int} {buffer : Bytes}

theorem writeAllUnits_of_lt (room : encodedLength w units < buffer.length) :
    writeAllUnits w units buffer =
      ⟨encodeStored w units ++ 0 :: buffer.drop (encodedLength w units + 1), [],
        .ok (encodedLength w units)⟩ := by
  have run := storeUnits_append w [] room
  rw [List.length_nil, Nat.zero_add] at run
  exact run

theorem writeAllUnits_of_le (short : buffer.length ≤ encodedLength w units) :
    writeAllUnits w units buffer =
      ⟨(encodeStored w units).take buffer.length, [], .error .indexOutOfRange⟩ := by
  exact storeUnits_append_of_le w [] short

theorem writeUnits_whole_of_lt (room : encodedLength w units < buffer.length) :
    writeUnits w units .whole buffer =
      ⟨encodeStored w units ++ 0 :: buffer.drop (encodedLength w units + 1), [],
        .ok (encodedLength w units)⟩ := by
  have accepted := Size.capacityOf_whole (Nat.zero_lt_of_lt room)
  have all : fitting (encodedSize w) buffer.length units = units := fitting_of_totalSize_lt _ room
  rw [writeUnits_of_capacityOf accepted, all]
  simp only [Nat.lt_irrefl, if_false]

end Writers

/-- `encodeMeasured`, `writeUnits` and `writeAllUnits` all write the bytes of each masked unit. -/
theorem encodeMeasured_eq_flatten (w : Width) (units : List Int) :
    ∃ pieces, units.mapM (fun unit => encodeUnit? (Int.land unit w.mask)) = .ok pieces ∧
      encodeMeasured w units = .ok pieces.flatten ∧
      pieces.flatten.length = encodedLength w units ∧
      (∀ buffer : Bytes, encodedLength w units < buffer.length →
        writeUnits w units .whole buffer =
          ⟨pieces.flatten ++ 0 :: buffer.drop (pieces.flatten.length + 1), [],
            .ok pieces.flatten.length⟩ ∧
        writeAllUnits w units buffer = writeUnits w units .whole buffer) ∧
      ∀ buffer : Bytes, buffer.length ≤ encodedLength w units →
        writeAllUnits w units buffer =
          ⟨pieces.flatten.take buffer.length, [], .error .indexOutOfRange⟩ := by
  refine ⟨_, mapM_encodeUnit?_land w units, ?_⟩
  rw [flatten_map_encodeUnit, length_encodeStored]
  refine ⟨encodeMeasured_eq w units, rfl, fun buffer room => ?_, fun buffer short => ?_⟩
  · rw [writeUnits_whole_of_lt room, writeAllUnits_of_lt room]
    exact ⟨rfl, rfl⟩
  · exact writeAllUnits_of_le short

/-- A negative unit, one too large and zero, also in a buffer that ends within a sequence. -/
theorem encodeMeasured_eq_flatten_of_negative :
    encodedLength .narrow [-1, 0x20AC41, 0] < ([7, 7, 7, 7, 7, 7, 7] : Bytes).length ∧
    ([7, 7, 7, 7] : Bytes).length ≤ encodedLength .narrow [-1, 0x20AC41, 0] ∧
    writeUnits .narrow [-1, 0x20AC41, 0] .whole [7, 7, 7, 7, 7, 7, 7] =
      ⟨[0xC3, 0xBF, 0x41, 0xC0, 0x80, 0x00, 7], [], .ok 5⟩ ∧
    writeAllUnits .narrow [-1, 0x20AC41, 0] [7, 7, 7, 7, 7, 7, 7] =
      writeUnits .narrow [-1, 0x20AC41, 0] .whole [7, 7, 7, 7, 7, 7, 7] ∧
    writeAllUnits .narrow [-1, 0x20AC41, 0] [7, 7, 7, 7] =
      ⟨[0xC3, 0xBF, 0x41, 0xC0], [], .error .indexOutOfRange⟩ := by
  have room : encodedLength .narrow [-1, 0x20AC41, 0] < ([7, 7, 7, 7, 7, 7, 7] : Bytes).length := by
    decide
  have short : ([7, 7, 7, 7] : Bytes).length ≤ encodedLength .narrow [-1, 0x20AC41, 0] := by decide
  obtain ⟨pieces, -, written, -, larger, smaller⟩ :=
    encodeMeasured_eq_flatten .narrow [-1, 0x20AC41, 0]
  have run : encodeMeasured .narrow [-1, 0x20AC41, 0] = .ok [0xC3, 0xBF, 0x41, 0xC0, 0x80] := by
    decide
  have data := Except.ok.inj (written.symm.trans run)
  rw [data] at larger smaller
  exact ⟨room, short, (larger _ room).1, (larger _ room).2, smaller _ short⟩

end ModifiedUtf8
