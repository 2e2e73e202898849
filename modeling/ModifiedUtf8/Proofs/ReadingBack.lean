import ModifiedUtf8.Proofs.Storing

/-!
# Reading back what was written

Bytes are decoded in two calls: one counts the units, the other decodes as many.  Of an encoding the
count is right, and the units come back, whatever bytes lie behind it.

The counted part may be given by a length (`fillCells_encodeMeasured`); then the cells exist already,
and those behind the units stay as they are.  Or it ends at the terminator that a bounded write left
in its buffer (`decodeStored_writeUnits`); no sequence holds a zero byte, so that the first one in the
buffer is this terminator.
-/

namespace ModifiedUtf8

/-! ## What an encoding holds -/

section Encodings

variable (w : Width) (units : List Int) (back : Bytes)

theorem scanUnits_encodeStored_append : scanUnits w (encodeStored w units ++ back) =
    scanUnits w (encodeStored w units) ++ scanUnits w back := by
  have alone := scanUnits_encodeUnits_append w (units.map w.store) []
  rw [List.append_nil, show scanUnits w [] = [] from rfl, List.append_nil] at alone
  rw [encodeStored, scanUnits_encodeUnits_append, alone]

theorem unitsOf_encodeStored_append : unitsOf w (encodeStored w units ++ back) =
    units.map w.store ++ unitsOf w back := by
  rw [encodeStored, unitsOf_encodeUnits_append, List.map_map]
  congr 1
  exact List.map_congr_left fun unit _ => w.store_toNat_store unit

theorem length_scanUnits_encodeStored : (scanUnits w (encodeStored w units)).length =
    units.length := by
  have same := congrArg List.length (unitsOf_encodeStored_append w units [])
  rw [List.append_nil, show unitsOf w [] = [] from rfl, List.append_nil] at same
  rwa [unitsOf, List.length_map, List.length_map] at same

theorem le_length_scanUnits_append :
    units.length ≤ (scanUnits w (encodeStored w units ++ back)).length := by
  rw [scanUnits_encodeStored_append, List.length_append, length_scanUnits_encodeStored]
  exact Nat.le_add_right _ _

theorem take_encodeStored_append :
    (encodeStored w units ++ back).take (encodedLength w units) = encodeStored w units := by
  rw [← length_encodeStored, List.take_left]

theorem isLegalWithin_encodeStored (legacy : Bool) :
    isLegalWithin (encodeStored w units ++ back) (.int (encodedLength w units)) legacy =
      .ok true := by
  have inside : encodedLength w units ≤ (encodeStored w units ++ back).length := by
    rw [← length_encodeStored, List.length_append]
    exact Nat.le_add_right _ _
  rw [isLegalWithin_natCast inside, take_encodeStored_append, encodeStored, isLegal_encodeUnits]

end Encodings

/-! ## Filling cells from an encoding -/

section Filling

variable {kind : CellKind} {w : Width} {units : List Int} {cells : List Int}

/-- The units of an encoding go to the first cells, and filling goes on behind them. -/
theorem fillCells_encodeStored_append
    (holds : ∀ unit ∈ units, kind.holds (w.store unit) = true) (room : units.length ≤ cells.length)
    (more : Nat) (back : Bytes) :
    let later := fillCells kind w more back (cells.drop units.length)
    fillCells kind w (units.length + more) (encodeStored w units ++ back) cells =
      ⟨(units.map w.store).map (fun unit => (unit.toNat : Int)) ++ later.content, later.log,
        later.result.map ((encodeStored w units).length + ·)⟩ := by
  intro later
  have stored : (unitsOf w (encodeStored w units ++ back)).take units.length =
      units.map w.store := by
    rw [unitsOf_encodeStored_append, List.take_left' (List.length_map _)]
  have taken : (scanUnits w (encodeStored w units ++ back)).take units.length =
      scanUnits w (encodeStored w units) := by
    rw [scanUnits_encodeStored_append, List.take_left' (length_scanUnits_encodeStored w units)]
  have held : ∀ unit ∈ (unitsOf w (encodeStored w units ++ back)).take units.length,
      kind.holds unit = true := by
    rw [stored]
    exact List.forall_mem_map.2 holds
  have filled := fillCells_add held (le_length_scanUnits_append w units back) room more
  simp only [stored, taken, totalSize_scanUnits, List.drop_left] at filled
  exact filled

theorem fillCells_refuse {unit : Int} (h : kind.holds (w.store unit) = false) (n : Nat) (back : Bytes) :
    fillCells kind w (n + 1) (encodeUnit (w.store unit) ++ back) cells =
      .refuse cells .byteOutOfRange := by
  obtain ⟨lead, tail, bytes, -, read⟩ := decodeUnit_encodeUnit w (w.store unit)
  rw [bytes, List.cons_append, fillCells_eq_fillDecoded]
  unfold fillDecoded
  simp [read, w.store_toNat_store, h]

theorem fillCells_encodeStored_refuse {held : List Int} {unit : Int}
    (holds : ∀ u ∈ held, kind.holds (w.store u) = true) (refused : kind.holds (w.store unit) = false)
    (room : held.length ≤ cells.length) (left : List Int) (back : Bytes) :
    fillCells kind w (held ++ unit :: left).length (encodeStored w (held ++ unit :: left) ++ back)
        cells =
      ⟨(held.map w.store).map (fun u => (u.toNat : Int)) ++ cells.drop held.length, [],
        .error .byteOutOfRange⟩ := by
  have split : encodeStored w (held ++ unit :: left) ++ back =
      encodeStored w held ++ (encodeUnit (w.store unit) ++ (encodeStored w left ++ back)) := by
    simp [encodeStored, encodeUnits_append, encodeUnits_cons]
  have filled := fillCells_encodeStored_append holds room (left.length + 1)
    (encodeUnit (w.store unit) ++ (encodeStored w left ++ back))
  rw [fillCells_refuse refused] at filled
  rw [split, List.length_append, List.length_cons]
  exact filled

theorem CellKind.holds_store_iff (kind : CellKind) {unit : Int} (pos : 0 ≤ unit)
    (le : unit ≤ w.mask) :
    kind.holds (w.store unit) = true ↔ (kind = .byte → fitsNarrow unit = true) := by
  have same := Width.natCast_toNat_store_of_le pos le
  cases kind with
  | integer => simp [holds]
  | word => simp [holds]
  | byte =>
    simp only [holds, fitsNarrow, decide_eq_true_eq, true_implies]
    omega

end Filling

/-! ## Two calls -/

theorem exists_first_wide {units : List Int} (h : allFitNarrow units = false) :
    ∃ held unit left, units = held ++ unit :: left ∧ allFitNarrow held = true ∧
      fitsNarrow unit = false := by
  induction units with
  | nil => cases h
  | cons unit rest ih =>
    cases fits : fitsNarrow unit with
    | false => exact ⟨[], unit, rest, rfl, rfl, fits⟩
    | true =>
      rw [allFitNarrow, List.all_cons, fits, Bool.true_and] at h
      obtain ⟨held, wide, left, rfl, all, first⟩ := ih h
      refine ⟨unit :: held, wide, left, rfl, ?_, first⟩
      rw [allFitNarrow, List.all_cons, fits, Bool.true_and]
      exact all

/-- `fillCells` gives back what `encodeMeasured` wrote, into cells that hold it; byte cells refuse
the first that does not fit. -/
theorem fillCells_encodeMeasured (w : Width) {units : List Int}
    (inRange : ∀ unit ∈ units, 0 ≤ unit ∧ unit ≤ w.mask) (back : Bytes) (kind : CellKind)
    {cells : List Int} (room : units.length ≤ cells.length) :
    ∃ data m, encodeMeasured w units = .ok data ∧
      measure (data ++ back) (.int data.length) = .ok m ∧ m.length = units.length ∧
      ((kind = .byte → allFitNarrow units = true) →
        fillCells kind w units.length (data ++ back) cells =
          ⟨units ++ cells.drop units.length, [], .ok data.length⟩) ∧
      (kind = .byte → allFitNarrow units = false → ∃ held unit left, units = held ++ unit :: left ∧
        allFitNarrow held = true ∧ fitsNarrow unit = false ∧
        fillCells kind w units.length (data ++ back) cells =
          ⟨held ++ cells.drop held.length, [], .error .byteOutOfRange⟩) := by
  have holds (unit : Int) (mem : unit ∈ units) :=
    kind.holds_store_iff (inRange unit mem).1 (inRange unit mem).2
  refine ⟨_, _, encodeMeasured_eq w units, measure_append _ back, ?_, fun fits => ?_,
    fun byte wide => ?_⟩
  · rw [length_measureCounted, encodeStored, startCount_encodeUnits, List.length_map]
  · have all : ∀ unit ∈ units, kind.holds (w.store unit) = true := fun unit mem =>
      (holds unit mem).2 fun byte => List.all_eq_true.1 (fits byte) unit mem
    have filled := fillCells_encodeStored_append all room 0 back
    rw [map_toNat_store inRange] at filled
    exact filled
  · obtain ⟨held, unit, left, rfl, all, first⟩ := exists_first_wide wide
    have before : ∀ u ∈ held, kind.holds (w.store u) = true := fun u mem =>
      (holds u (List.mem_append_left _ mem)).2 fun _ => List.all_eq_true.1 all u mem
    have refused : kind.holds (w.store unit) = false := by
      rw [Bool.eq_false_iff, ne_eq, holds unit (by simp), first]
      exact fun fits => absurd (fits byte) (by decide)
    have enough : held.length ≤ cells.length := by
      rw [List.length_append] at room
      omega
    have filled := fillCells_encodeStored_refuse before refused enough left back
    rw [map_toNat_store fun u mem => inRange u (List.mem_append_left _ mem)] at filled
    exact ⟨held, unit, left, rfl, all, first, filled⟩

/-- Zero, a euro sign and half a pair before a stray byte, with a cell too many. -/
theorem fillCells_encodeMeasured_of_euro :
    (∀ unit ∈ ([0, 0x20AC, 0xD83D] : List Int), 0 ≤ unit ∧ unit ≤ Width.wide.mask) ∧
    ([0, 0x20AC, 0xD83D] : List Int).length ≤ ([7, 7, 7, 7] : List Int).length ∧
    fillCells .integer .wide 3 [0xC0, 0x80, 0xE2, 0x82, 0xAC, 0xED, 0xA0, 0xBD, 0x80] [7, 7, 7, 7] =
      ⟨[0, 0x20AC, 0xD83D, 7], [], .ok 8⟩ ∧
    allFitNarrow [0, 0x20AC, 0xD83D] = false ∧
    ∃ held unit left, ([0, 0x20AC, 0xD83D] : List Int) = held ++ unit :: left ∧
      allFitNarrow held = true ∧ fitsNarrow unit = false ∧
      fillCells .byte .wide 3 [0xC0, 0x80, 0xE2, 0x82, 0xAC, 0xED, 0xA0, 0xBD, 0x80] [7, 7, 7, 7] =
        ⟨held ++ [7, 7, 7, 7].drop held.length, [], .error .byteOutOfRange⟩ := by
  have inRange : ∀ unit ∈ ([0, 0x20AC, 0xD83D] : List Int), 0 ≤ unit ∧ unit ≤ Width.wide.mask := by
    decide
  have room : ([0, 0x20AC, 0xD83D] : List Int).length ≤ ([7, 7, 7, 7] : List Int).length := by decide
  have wide : allFitNarrow [0, 0x20AC, 0xD83D] = false := by decide
  have written : encodeMeasured .wide [0, 0x20AC, 0xD83D] =
      .ok [0xC0, 0x80, 0xE2, 0x82, 0xAC, 0xED, 0xA0, 0xBD] := by decide
  obtain ⟨data, _, e, -, -, filled, -⟩ := fillCells_encodeMeasured .wide inRange [0x80] .integer room
  obtain ⟨data', _, e', -, -, -, refused⟩ := fillCells_encodeMeasured .wide inRange [0x80] .byte room
  obtain rfl := Except.ok.inj (written.symm.trans e)
  obtain rfl := Except.ok.inj (written.symm.trans e')
  exact ⟨inRange, room, filled (by decide), wide, refused rfl wide⟩

/-- A euro sign does not go into a byte cell, whatever room there is. -/
theorem fillCells_byte_of_euro :
    fillCells .byte .wide 1 [0xE2, 0x82, 0xAC] [0] = .refuse [0] .byteOutOfRange ∧
    ¬ ∀ (w : Width) (units : List Int), (∀ unit ∈ units, 0 ≤ unit ∧ unit ≤ w.mask) →
      ∀ (back : Bytes) (kind : CellKind) (cells : List Int), units.length ≤ cells.length →
        ∃ data m, encodeMeasured w units = .ok data ∧
          measure (data ++ back) (.int data.length) = .ok m ∧ m.length = units.length ∧
          fillCells kind w units.length (data ++ back) cells =
            ⟨units ++ cells.drop units.length, [], .ok data.length⟩ := by
  have refused : fillCells .byte .wide 1 [0xE2, 0x82, 0xAC] [0] = .refuse [0] .byteOutOfRange := rfl
  refine ⟨refused, fun always => ?_⟩
  obtain ⟨data, m, written, -, -, filled⟩ :=
    always .wide [0x20AC] (by decide) [] .byte [0] (by decide)
  have euro : encodeMeasured .wide [0x20AC] = .ok [0xE2, 0x82, 0xAC] := by decide
  obtain rfl := Except.ok.inj (euro.symm.trans written)
  have same := congrArg Outcome.result (refused.symm.trans filled)
  cases same

/-! ## Up to a terminator -/

section Terminated

variable (w : Width) (units : List Int) (stale : Bytes)

theorem takeWhile_encodeStored :
    (encodeStored w units ++ 0 :: stale).takeWhile (· != 0) = encodeStored w units := by
  have nonzero : ∀ b ∈ encodeStored w units, (b != 0) = true := by
    intro b mem
    rw [bne_iff_ne]
    rintro rfl
    exact zero_notMem_encodeUnits _ mem
  rw [List.takeWhile_append_of_pos nonzero, List.takeWhile_cons_of_neg (by decide), List.append_nil]

theorem length_measureTerminated_encodeStored :
    (measureTerminated (encodeStored w units ++ 0 :: stale)).length = units.length := by
  rw [length_measureTerminated, takeWhile_encodeStored, encodeStored, startCount_encodeUnits,
    List.length_map]

theorem decodeStored_encodeStored :
    decodeStored (encodeStored w units ++ 0 :: stale) .whole (some w) =
      .ok ⟨w, units.map fun unit => unit % (w.bound : Int)⟩ := by
  have count := length_measureTerminated_encodeStored w units stale
  have enough : (measureTerminated (encodeStored w units ++ 0 :: stale)).length ≤
      (scanUnits w (encodeStored w units ++ 0 :: stale)).length := by
    rw [count]
    exact le_length_scanUnits_append w units _
  rw [decodeStored_eq (some w) rfl enough, Option.getD_some, count, unitsOf_encodeStored_append,
    List.take_left' (List.length_map _), List.map_map]
  congr 2
  exact List.map_congr_left fun unit _ => w.natCast_toNat_store unit

end Terminated

/-- `decodeStored` without a length gives back what `writeUnits` kept, whatever stood in the buffer. -/
theorem decodeStored_writeUnits (w : Width) (units : List Int) {buffer : Bytes} {capacity : Nat}
    (pos : 0 < capacity) (le : capacity ≤ buffer.length) :
    ∃ k content log r,
      writeUnits w units (.int capacity) buffer = ⟨content, log, .ok r⟩ ∧ k ≤ units.length ∧
      log = (if k < units.length then [.encodingCut k units.length] else []) ∧
      content.take r = encodeStored w (units.take k) ∧ r = encodedLength w (units.take k) ∧
      decodeStored content .whole (some w) =
        .ok ⟨w, (units.take k).map fun unit => unit % (w.bound : Int)⟩ ∧
      (∃ m, measure content .whole = .ok m ∧ m.length = k) ∧
      (∀ legacy, isLegalWithin content (.int r) legacy = .ok true) ∧
      (k = units.length ↔ r = encodedLength w units) := by
  have written : writeUnits w units (.int capacity) buffer = _ :=
    writeUnits_of_capacityOf (Size.capacityOf_natCast pos le)
  have kept := fitting_prefix (encodedSize w) capacity units
  have all := length_fitting_eq_iff (encodedSize w) (encodedSize_pos w) capacity units
  generalize fitting (encodedSize w) capacity units = front at written kept all
  dsimp only at written
  have shorter := kept.length_le
  rw [List.prefix_iff_eq_take] at kept
  refine ⟨front.length, _, _, _, written, shorter, rfl, ?_, ?_, ?_, ⟨_, rfl, ?_⟩, fun legacy => ?_,
    all⟩
  · rw [take_encodeStored_append, ← kept]
  · rw [← kept]
  · rw [decodeStored_encodeStored, ← kept]
  · exact length_measureTerminated_encodeStored w front _
  · exact isLegalWithin_encodeStored w front _ legacy

/-- A masked unit, zero and half a pair; the other half stands behind the terminator already. -/
theorem decodeStored_writeUnits_of_stale_half :
    0 < 8 ∧ 8 ≤ ([0, 0, 0, 0, 0, 0, 0, 0xED, 0xB8, 0x80] : Bytes).length ∧
    decodeStored [0x61, 0xC0, 0x80, 0xED, 0xA0, 0xBD, 0x00, 0xED, 0xB8, 0x80] .whole (some .wide) =
      .ok ⟨.wide, [0x61, 0, 0xD83D]⟩ ∧
    ∀ legacy, isLegalWithin [0x61, 0xC0, 0x80, 0xED, 0xA0, 0xBD, 0x00, 0xED, 0xB8, 0x80] (.int 6)
      legacy = .ok true := by
  have le : 8 ≤ ([0, 0, 0, 0, 0, 0, 0, 0xED, 0xB8, 0x80] : Bytes).length := by decide
  obtain ⟨k, content, log, r, written, -, cut, -, -, stored, -, legal, -⟩ :=
    decodeStored_writeUnits .wide [0x10061, 0, 0xD83D, 0xDE00] (by decide) le
  have run : writeUnits .wide [0x10061, 0, 0xD83D, 0xDE00] (.int 8)
      [0, 0, 0, 0, 0, 0, 0, 0xED, 0xB8, 0x80] =
        ⟨[0x61, 0xC0, 0x80, 0xED, 0xA0, 0xBD, 0x00, 0xED, 0xB8, 0x80], [.encodingCut 3 4], .ok 6⟩ :=
    rfl
  obtain ⟨rfl, rfl, size⟩ := Outcome.mk.inj (run.symm.trans written)
  obtain rfl := Except.ok.inj size
  obtain rfl : k = 3 := by
    split at cut
    · cases cut
      rfl
    · cases cut
  exact ⟨by decide, le, stored, legal⟩

end ModifiedUtf8
