import ModifiedUtf8.Conversion
import ModifiedUtf8.Proofs.Cutting
import ModifiedUtf8.Proofs.Lenient

/-!
# Decoding into storage

Three ways lead from bytes to a text: characters are read one by one, units are read one by one and
their surrogates joined, or units are counted, stored in cells of that number and joined.  The first
two agree on all bytes, legal or not, and all three on legal ones (`decode_lenient_eq_ofUnits`).

Copying ASCII first changes nothing (`fillCells_eq_fillDecoded`), and `fillCells_eq` says everything that
filling cells does as long as there are units and cells enough.
The count is right on legal bytes (`IsConcatenation.startCount_eq`): of each sequence just the lead
is no continuation.
-/

namespace ModifiedUtf8

/-! ## Scans use up all bytes -/

theorem totalSize_scan {α : Type} {read : UInt8 → Bytes → Decoded α}
    (pos : ∀ lead rest, 0 < (read lead rest).size)
    (le : ∀ lead rest, (read lead rest).size ≤ rest.length + 1) (data : Bytes) :
    totalSize Decoded.size (scan read data) = data.length := by
  induction data using scan_induction read with
  | nil => rfl
  | cons lead rest ih =>
    have := pos lead rest
    have := le lead rest
    rw [scan_cons, totalSize_cons, ih, List.length_drop, List.length_cons]
    omega

theorem totalSize_scanUnits (w : Width) (data : Bytes) :
    totalSize Decoded.size (scanUnits w data) = data.length :=
  totalSize_scan (decodeUnit_size_pos w) (decodeUnit_size_le w) data

theorem totalSize_scanCharacters (data : Bytes) :
    totalSize Decoded.size (scanCharacters data) = data.length :=
  totalSize_scan decodeCharacter_size_pos decodeCharacter_size_le data

/-! ## Counting units -/

/-- The number of bytes that start a unit. -/
def startCount (data : Bytes) : Nat := data.countP fun b => !isContinuation b

theorem startCount_append (front back : Bytes) :
    startCount (front ++ back) = startCount front + startCount back := List.countP_append

theorem startCount_continuations {tail : Bytes} (h : ∀ b ∈ tail, isContinuation b = true) :
    startCount tail = 0 := by
  rw [startCount, List.countP_eq_zero]
  intro b mem
  rw [h b mem]
  decide

theorem isContinuation_of_announcedSize {lead : UInt8} (h : announcedSize lead ≠ 1) :
    isContinuation lead = false :=
  Bool.eq_false_iff.2 (mt announcedSize_of_isContinuation h)

theorem IsSequence.startCount_eq {legacy : Bool} {s : Bytes} (h : IsSequence legacy s) :
    startCount s = 1 := by
  cases h with
  | @one b pos ascii => simp [startCount, isContinuation_of_lt ascii]
  | @two lead b kind tail =>
    simp [startCount, isContinuation_of_announcedSize (by rw [kind]; decide), tail]
  | @three lead b c kind tail last =>
    simp [startCount, isContinuation_of_announcedSize (by rw [kind]; decide), tail, last]

theorem IsConcatenation.startCount_eq {legacy : Bool} {data : Bytes}
    (h : IsConcatenation legacy data) (w : Width) : startCount data = (scanUnits w data).length := by
  induction h with
  | nil => rfl
  | append first _ ih =>
    obtain ⟨unit, scanned⟩ := first.exists_scanUnits w
    rw [startCount_append, first.startCount_eq, scanned, List.length_cons, ih, Nat.add_comm]

theorem Measure.length_countDown (m : Measure) (before : UInt8) (data : Bytes) :
    (m.countDown before data).length = m.length - data.countP isContinuation := by
  fun_induction Measure.countDown m before data with
  | case1 => rfl
  | case2 m before b rest tail noted ih =>
    rw [ih, List.countP_cons_of_pos tail]
    show m.length - 1 - _ = _
    omega
  | case3 m before b rest start ih => rw [ih, List.countP_cons_of_neg start]

theorem length_measureCounted (data : Bytes) : (measureCounted data).length = startCount data := by
  have all := List.length_eq_countP_add_countP isContinuation (l := data)
  rw [measureCounted, Measure.length_countDown, Measure.start, startCount]
  simp only [decide_not, Bool.decide_eq_true] at all
  exact Nat.sub_eq_of_eq_add' all

theorem Measure.length_countUp (m : Measure) (before : UInt8) (data : Bytes) :
    (m.countUp before data).length = m.length + startCount (data.takeWhile (· != 0)) := by
  fun_induction Measure.countUp m before data with
  | case1 => rfl
  | case2 m before rest => simp [startCount]
  | case3 m before b rest nonzero tail ih =>
    rw [ih, List.takeWhile_cons_of_pos (by simpa using nonzero), startCount, startCount,
      List.countP_cons_of_neg (by simp [tail])]
    rfl
  | case4 m before b rest nonzero start ih =>
    rw [ih, List.takeWhile_cons_of_pos (by simpa using nonzero), startCount, startCount,
      List.countP_cons_of_pos (by simp [start])]
    simp only
    omega

theorem length_measureTerminated (data : Bytes) :
    (measureTerminated data).length = startCount (data.takeWhile (· != 0)) := by
  rw [measureTerminated, Measure.length_countUp, Measure.start, Nat.zero_add]

theorem measure_natCast {data : Bytes} {n : Nat} (le : n ≤ data.length) :
    measure data (.int n) = .ok (measureCounted (data.take n)) := by
  simp only [measure, Size.lengthOf_natCast le, Except.map]

theorem measure_append (data back : Bytes) :
    measure (data ++ back) (.int data.length) = .ok (measureCounted data) := by
  have le : data.length ≤ (data ++ back).length := by simp
  rw [measure_natCast le, List.take_left]

theorem measure_all (data : Bytes) :
    measure data (.int data.length) = .ok (measureCounted data) := by
  have h := measure_append data []
  rwa [List.append_nil] at h

theorem startCount_encodeUnits (units : List CodeUnit) :
    startCount (encodeUnits units) = units.length := by
  induction units with
  | nil => rfl
  | cons unit units ih =>
    rw [encodeUnits_cons, startCount_append, (isSequence_encodeUnit unit).startCount_eq, ih,
      List.length_cons, Nat.add_comm]

/-! ## Filling cells -/

theorem holds_decodeUnit (w : Width) (lead : UInt8) (rest : Bytes) :
    w.cellKind.holds (decodeUnit w lead rest).value = true := by
  cases w with
  | wide => rfl
  | narrow =>
    have bound := lead.toNat_lt
    have store (v : Int) : (Width.narrow.store v).toNat < 256 := Width.narrow.toNat_store_lt v
    simp only [Width.cellKind, CellKind.holds, decide_eq_true_eq]
    rcases decodeUnit_cases .narrow lead rest with ⟨b, more, -, -, -, e⟩ |
      ⟨b, c, more, -, -, -, -, e⟩ | e
    · rw [e]
      exact Nat.le_of_lt_succ (store _)
    · rw [e]
      exact Nat.le_of_lt_succ (store _)
    · rw [e, UInt8.toNat_toUInt16]
      omega

theorem holds_of_mem_unitsOf {w : Width} {data : Bytes} {unit : CodeUnit}
    (mem : unit ∈ unitsOf w data) : w.cellKind.holds unit = true := by
  induction data using scan_induction (decodeUnit w) with
  | nil => cases mem
  | cons lead rest ih =>
    rw [unitsOf_cons, List.mem_cons] at mem
    rcases mem with rfl | mem
    · exact holds_decodeUnit w lead rest
    · exact ih mem

theorem map_add_map_add (size more : Nat) (result : Except Fault Nat) :
    (result.map (more + ·)).map (size + ·) = result.map (size + more + ·) := by
  cases result with
  | error fault => rfl
  | ok n => simp [Except.map, Nat.add_assoc]

theorem holds_toUInt16 (kind : CellKind) (b : UInt8) : kind.holds b.toUInt16 = true := by
  have bound := b.toNat_lt
  cases kind with
  | byte =>
    simp only [CellKind.holds, UInt8.toNat_toUInt16, decide_eq_true_eq]
    omega
  | integer => rfl
  | word => rfl

/-- Copying bytes that are ASCII is decoding them. -/
theorem fillCells_eq_fillDecoded (kind : CellKind) (w : Width) (n : Nat) (data : Bytes)
    (cells : List Int) : fillCells kind w n data cells = fillDecoded kind w n data cells := by
  fun_induction fillCells kind w n data cells with
  | case1 => rfl
  | case2 => rfl
  | case3 => rfl
  | case4 n b rest ascii =>
    have one : announcedSize b = 1 := announcedSize_of_lt (by omega)
    have read := decodeUnit_one (w := w) one rest
    simp only [fillDecoded, read, holds_toUInt16, if_true]
  | case5 n b rest ascii c others outcome ih =>
    have one : announcedSize b = 1 := announcedSize_of_lt (by omega)
    have read := decodeUnit_one (w := w) one rest
    simp only [fillDecoded, read, holds_toUInt16, if_true, UInt8.toNat_toUInt16, outcome, ih]
    rfl

/-- Filling more cells goes on behind the units that the first ones have taken. -/
theorem fillDecoded_add {kind : CellKind} {w : Width} {n : Nat} {data : Bytes} {cells : List Int}
    (holds : ∀ unit ∈ (unitsOf w data).take n, kind.holds unit = true)
    (units : n ≤ (scanUnits w data).length) (room : n ≤ cells.length) (more : Nat) :
    let size := totalSize Decoded.size ((scanUnits w data).take n)
    let later := fillDecoded kind w more (data.drop size) (cells.drop n)
    fillDecoded kind w (n + more) data cells =
      ⟨((unitsOf w data).take n).map (fun unit => (unit.toNat : Int)) ++ later.content, later.log,
        later.result.map (size + ·)⟩ := by
  induction n generalizing data cells with
  | zero =>
    simp only [List.take_zero, totalSize_nil, List.drop_zero, List.map_nil, List.nil_append,
      Nat.zero_add]
    cases fillDecoded kind w more data cells with
    | mk content log result => cases result <;> rfl
  | succ n ih =>
    match data, cells, units, room with
    | lead :: rest, c :: others, units, room =>
      rw [unitsOf_cons, List.take_succ_cons, List.forall_mem_cons] at holds
      rw [scanUnits_cons, List.length_cons] at units
      have pos := decodeUnit_size_pos w lead rest
      have behind (k : Nat) : (lead :: rest).drop ((decodeUnit w lead rest).size + k) =
          (rest.drop ((decodeUnit w lead rest).size - 1)).drop k := by
        have split : (decodeUnit w lead rest).size + k = (decodeUnit w lead rest).size - 1 + k + 1 := by
          omega
        rw [split, List.drop_succ_cons, List.drop_drop]
      have later := ih holds.2 (Nat.le_of_succ_le_succ units) (Nat.le_of_succ_le_succ room)
      rw [Nat.succ_add, fillDecoded, if_pos holds.1, later, scanUnits_cons, unitsOf_cons]
      simp only [List.take_succ_cons, totalSize_cons, List.map_cons, List.cons_append,
        List.drop_succ_cons, behind, map_add_map_add]

theorem fillCells_add {kind : CellKind} {w : Width} {n : Nat} {data : Bytes} {cells : List Int}
    (holds : ∀ unit ∈ (unitsOf w data).take n, kind.holds unit = true)
    (units : n ≤ (scanUnits w data).length) (room : n ≤ cells.length) (more : Nat) :
    let size := totalSize Decoded.size ((scanUnits w data).take n)
    let later := fillCells kind w more (data.drop size) (cells.drop n)
    fillCells kind w (n + more) data cells =
      ⟨((unitsOf w data).take n).map (fun unit => (unit.toNat : Int)) ++ later.content, later.log,
        later.result.map (size + ·)⟩ := by
  simp only [fillCells_eq_fillDecoded]
  exact fillDecoded_add holds units room more

theorem fillCells_eq {kind : CellKind} {w : Width} {n : Nat} {data : Bytes} {cells : List Int}
    (holds : ∀ unit ∈ (unitsOf w data).take n, kind.holds unit = true)
    (units : n ≤ (scanUnits w data).length) (room : n ≤ cells.length) :
    fillCells kind w n data cells =
      ⟨((unitsOf w data).take n).map (fun unit => (unit.toNat : Int)) ++ cells.drop n, [],
        .ok (totalSize Decoded.size ((scanUnits w data).take n))⟩ :=
  fillCells_add holds units room 0

theorem decodeStored_eq (width : Option Width) {data : Bytes} {length : Size} {m : Measure}
    (measured : measure data length = .ok m)
    (units : m.length ≤ (scanUnits (width.getD m.width) data).length) :
    decodeStored data length width = .ok ⟨width.getD m.width,
      ((unitsOf (width.getD m.width) data).take m.length).map fun unit => (unit.toNat : Int)⟩ := by
  have fresh : m.length ≤ (List.replicate m.length (0 : Int)).length :=
    Nat.le_of_eq List.length_replicate.symm
  have behind : (List.replicate m.length (0 : Int)).drop m.length = [] :=
    List.drop_eq_nil_of_le (Nat.le_of_eq List.length_replicate)
  have holds : ∀ unit ∈ (unitsOf (width.getD m.width) data).take m.length,
      (width.getD m.width).cellKind.holds unit = true :=
    fun unit mem => holds_of_mem_unitsOf (List.mem_of_mem_take mem)
  simp only [decodeStored, measured, fillCells_eq holds units fresh, behind, List.append_nil]
  rfl

/-! ## The three ways to a text -/

theorem ofInt?_natCast_toNat (unit : CodeUnit) :
    CodePoint.ofInt? (unit.toNat : Int) = .ok (CodePoint.ofUnit unit) := by
  have bound := unit.toNat_lt
  rw [CodePoint.ofInt?, dif_pos (by omega)]
  rfl

theorem ofIntegers?_map_toNat (units : List CodeUnit) :
    Text.ofIntegers? (units.map fun unit => (unit.toNat : Int)) = .ok (Text.ofUnits units) := by
  have each : (units.map fun unit => (unit.toNat : Int)).mapM CodePoint.ofInt? =
      .ok (units.map CodePoint.ofUnit) := by
    induction units with
    | nil => rfl
    | cons unit rest ih =>
      rw [List.map_cons, List.mapM_cons, ofInt?_natCast_toNat, ih]
      rfl
  rw [Text.ofIntegers?, each]
  rfl

theorem decodeStored_of_isLegal {legacy : Bool} {data : Bytes} (h : isLegal legacy data = true) :
    decodeStored data (.int data.length) (some .wide) =
      .ok ⟨.wide, (unitsOf .wide data).map fun unit => (unit.toNat : Int)⟩ := by
  have count : (measureCounted data).length = (scanUnits .wide data).length := by
    rw [length_measureCounted, ((isLegal_iff data).1 h).startCount_eq]
  have all : (unitsOf .wide data).length = (scanUnits .wide data).length := List.length_map _
  rw [decodeStored_eq (some .wide) (measure_all data) (Nat.le_of_eq count), Option.getD_some, count,
    ← all, List.take_length]

/-- `decode` and `Text.ofUnits` of `unitsOf` give one text of any bytes, and so does `decodeStored`
of legal ones. -/
theorem decode_lenient_eq_ofUnits (errors : String) (lenient : errors ≠ "strict") (data : Bytes) :
    let text := Text.ofUnits (unitsOf .wide data)
    decode (.ofName errors) data = .ok text ∧
    decodeSettled (.ofName errors) data true = .ok ⟨text, data.length⟩ ∧
    totalSize Decoded.size (scanCharacters data) = data.length ∧
    totalSize Decoded.size (scanUnits .wide data) = data.length ∧
    (isLegalWithin data .whole false = .ok true →
      decode .strict data = .ok text ∧
      ∃ stored, decodeStored data (.int data.length) (some .wide) = .ok stored ∧
        Text.ofIntegers? stored.units = .ok text) := by
  have mode : Strictness.ofName errors = .lenient := if_neg lenient
  rw [mode, decode_lenient, textOf_eq_ofUnits, isLegalWithin_whole, Except.ok.injEq]
  refine ⟨rfl, ?_, totalSize_scanCharacters data, totalSize_scanUnits .wide data, fun legal => ?_⟩
  · simp only [decodeSettled, if_true, List.take_length, decode_lenient, textOf_eq_ofUnits]
    rfl
  · refine ⟨?_, _, decodeStored_of_isLegal legal, ofIntegers?_map_toNat _⟩
    rw [decode_of_isLegal legal, textOf_eq_ofUnits]

/-- A lead before a pair and another at the end, and legal bytes with a pair and half a pair. -/
theorem decode_lenient_eq_ofUnits_of_stray_leads :
    "replace" ≠ "strict" ∧
    decodeSettled (.ofName "replace") [0xE0, 0xED, 0xA0, 0xBD, 0xED, 0xB8, 0x80, 0xC3] true =
      .ok ⟨[0xE0, 0x1F600, 0xC3], 8⟩ ∧
    isLegalWithin [0xED, 0xA0, 0xBD, 0xED, 0xB8, 0x80, 0xC0, 0x80, 0xED, 0xB8, 0x80] .whole false =
      .ok true ∧
    ∃ stored, decodeStored [0xED, 0xA0, 0xBD, 0xED, 0xB8, 0x80, 0xC0, 0x80, 0xED, 0xB8, 0x80]
        (.int 11) (some .wide) = .ok stored ∧
      Text.ofIntegers? stored.units = .ok [0x1F600, 0, 0xDE00] := by
  have lenient : "replace" ≠ "strict" := by decide
  have legal : isLegalWithin [0xED, 0xA0, 0xBD, 0xED, 0xB8, 0x80, 0xC0, 0x80, 0xED, 0xB8, 0x80]
      .whole false = .ok true := by decide
  exact ⟨lenient, (decode_lenient_eq_ofUnits "replace" lenient _).2.1, legal,
    ((decode_lenient_eq_ofUnits "replace" lenient _).2.2.2.2 legal).2⟩

end ModifiedUtf8
