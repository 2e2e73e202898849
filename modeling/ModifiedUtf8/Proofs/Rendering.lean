import ModifiedUtf8.Quoted
import ModifiedUtf8.Proofs.Fitting
import ModifiedUtf8.Proofs.Offsets
import ModifiedUtf8.Proofs.Unquoting

/-!
# Rendering in seven bits

A rendering is printable (`printable_of_mem_render`) and has the predicted size (`length_render`).
By induction over the units (`storeRenderings_append`) a bounded one writes the longest leading part that
leaves room for a terminator (`writeWithin_eq`), and one into a buffer of the predicted size is
complete (`writeWithin_measured`).

The units come as integers, of which a width keeps the low bits, or a loop over offsets reads them from
bytes, legal or not.  For both sources, `KeepsLongest` says what is in a buffer that may be too small
(`quoting_keeps_longest`), and `IsRendering` and `IsRenderingOfBytes` that a text is whole
(`ofBytes_eq_ofUnits`).
-/

namespace ModifiedUtf8

namespace Quoted

/-- A printable ASCII byte. -/
def Printable (b : UInt8) : Prop := 0x20 ≤ b.toNat ∧ b.toNat ≤ 0x7E

/-! ## One unit -/

section Render

variable {unit : CodeUnit}

theorem isPlain_iff : isPlain unit = true ↔ 0x20 ≤ unit.toNat ∧ unit.toNat ≤ 0x7E := by
  simp [isPlain]

theorem render_plain (h : isPlain unit = true) : render unit = [UInt8.ofNat unit.toNat] := by
  simp only [render]
  rw [if_pos h]

theorem render_escape (h : isPlain unit = false) : render unit =
    [backslash, letterU, hexDigit (unit.toNat / 4096), hexDigit (unit.toNat / 256),
      hexDigit (unit.toNat / 16), hexDigit unit.toNat] := by
  simp only [render]
  rw [if_neg (by rw [h]; decide)]

theorem toNat_ofNat_of_isPlain (h : isPlain unit = true) :
    (UInt8.ofNat unit.toNat).toNat = unit.toNat := by
  rw [isPlain_iff] at h
  rw [UInt8.toNat_ofNat']
  omega

theorem length_render (unit : CodeUnit) : (render unit).length = renderedSize unit := by
  unfold renderedSize
  split
  · next plain =>
    rw [render_plain plain]
    rfl
  · next other =>
    rw [render_escape (Bool.eq_false_iff.2 other)]
    rfl

theorem toNat_hexDigit (n : Nat) :
    (hexDigit n).toNat = if n % 16 < 10 then 48 + n % 16 else 87 + n % 16 := by
  have lt : n % 16 < 16 := Nat.mod_lt _ (by decide)
  rw [hexDigit, UInt8.toNat_ofNat']
  split <;> omega

theorem printable_hexDigit (n : Nat) : Printable (hexDigit n) := by
  have lt : n % 16 < 16 := Nat.mod_lt _ (by decide)
  rw [Printable, toNat_hexDigit]
  split <;> omega

theorem printable_of_mem_render {b : UInt8} (h : b ∈ render unit) : Printable b := by
  by_cases plain : isPlain unit = true
  · rw [render_plain plain, List.mem_singleton] at h
    rw [h, Printable, toNat_ofNat_of_isPlain plain]
    exact isPlain_iff.1 plain
  · rw [render_escape (Bool.eq_false_iff.2 plain)] at h
    simp only [List.mem_cons, List.not_mem_nil, or_false] at h
    rcases h with rfl | rfl | rfl | rfl | rfl | rfl
    · exact ⟨by decide, by decide⟩
    · exact ⟨by decide, by decide⟩
    all_goals exact printable_hexDigit _

end Render

/-! ## Lists of units -/

theorem length_flatMap_render (units : List CodeUnit) :
    (units.flatMap render).length = renderedLength units :=
  length_flatMap_eq_totalSize length_render units

theorem printable_of_mem_flatMap_render {units : List CodeUnit} {b : UInt8}
    (h : b ∈ units.flatMap render) : Printable b := by
  obtain ⟨unit, -, mem⟩ := List.mem_flatMap.1 h
  exact printable_of_mem_render mem

/-! ## Buffers -/

/-- A byte stored by itself and an escape stored at once take the place of as many bytes. -/
theorem storeRendering_append (front : Bytes) {back : Bytes} {unit : CodeUnit}
    (room : renderedSize unit ≤ back.length) : storeRendering (front ++ back) front.length unit =
      ⟨front ++ render unit ++ back.drop (renderedSize unit), [],
        .ok (front.length + renderedSize unit)⟩ := by
  have size := length_render unit
  unfold storeRendering
  split
  · rw [storeBytes_append front (by omega), size]
  · rw [overwrite, size, List.take_left, List.drop_append]
    simp

/-- A bounded rendering renders what fits behind the position that it has come to. -/
theorem storeRenderings_append {front back : Bytes} {capacity room : Nat}
    (left : front.length + room = capacity) (pos : 0 < room) (le : room ≤ back.length)
    (units : List CodeUnit) : storeRenderings capacity front.length units (front ++ back) =
      let kept := fitting renderedSize room units
      ⟨front ++ (kept.flatMap render ++ 0 :: back.drop (renderedLength kept + 1)),
        if kept.length < units.length then [.quotingCut (front.length + renderedLength kept)] else [],
        .ok (front.length + renderedLength kept)⟩ := by
  induction units generalizing front back room with
  | nil =>
    rw [storeRenderings, terminate_append front (Nat.lt_of_lt_of_le pos le)]
    simp [fitting, renderedLength]
  | cons unit rest ih =>
    by_cases fits : renderedSize unit < room
    · have size := length_render unit
      have step : storeRenderings capacity front.length (unit :: rest) (front ++ back) =
          storeRenderings capacity (front ++ render unit).length rest
            (front ++ render unit ++ back.drop (renderedSize unit)) := by
        rw [storeRenderings, if_neg (by omega), storeRendering_append front (by omega),
          List.length_append, size]
      have shift : (front ++ render unit).length + (room - renderedSize unit) = capacity := by
        rw [List.length_append]
        omega
      have behind : room - renderedSize unit ≤ (back.drop (renderedSize unit)).length := by
        rw [List.length_drop]
        omega
      have later := ih shift (Nat.sub_pos_of_lt fits) behind
      rw [step, later]
      simp only [fitting, if_pos fits, renderedLength, totalSize_cons, List.flatMap_cons,
        List.length_cons, List.length_append, size, List.drop_drop, List.append_assoc,
        Nat.add_assoc, Nat.add_lt_add_iff_right]
    · rw [storeRenderings, if_pos (by omega), terminate_append front (Nat.lt_of_lt_of_le pos le)]
      simp [fitting, if_neg fits, renderedLength]

theorem writeWithin_eq {units : List CodeUnit} {room : Nat} {buffer : Bytes} (pos : 0 < room)
    (le : room ≤ buffer.length) : writeWithin units room buffer =
      let kept := fitting renderedSize room units
      ⟨kept.flatMap render ++ 0 :: buffer.drop (renderedLength kept + 1),
        if kept.length < units.length then [.quotingCut (renderedLength kept)] else [],
        .ok (renderedLength kept)⟩ := by
  have left : ([] : Bytes).length + room = room := Nat.zero_add room
  have run := storeRenderings_append left pos le units
  simpa [writeWithin] using run

/-- A buffer of the predicted size takes all units. -/
theorem writeWithin_measured (units : List CodeUnit) :
    writeWithin units (renderedLength units + 1) (zeros (renderedLength units + 1)) =
      ⟨units.flatMap render ++ [0], [], .ok (renderedLength units)⟩ := by
  have all : fitting renderedSize (renderedLength units + 1) units = units :=
    fitting_of_totalSize_lt _ (Nat.lt_succ_self _)
  rw [writeWithin_eq (Nat.succ_pos _) (by simp [zeros])]
  simp [all, zeros]

/-! ## Units given as integers -/

section Units

variable (w : Width) (units : List Int)

theorem writeUnits_measured : writeUnits w units .whole (zeros (unitsLength w units + 1)) =
    ⟨(units.map w.store).flatMap render ++ [0], [], .ok (unitsLength w units)⟩ := by
  rw [writeUnits, capacityOf_zeros]
  exact writeWithin_measured (units.map w.store)

theorem ofUnits_eq :
    ofUnits w units = .ok (Text.ofBytes ((units.map w.store).flatMap render)) := by
  simp only [ofUnits, writeUnits_measured, Except.map]
  rw [unitsLength, ← length_flatMap_render, List.take_left]

end Units

/-! ## Bytes -/

section Decoding

variable {data : Bytes} {length : Size} {n : Nat}

theorem bytesLength_of_lengthOf (h : length.lengthOf data = .ok n) :
    bytesLength data length = .ok (renderedLength (unitsOf .wide (data.take n))) := by
  rw [bytesLength, h]
  rfl

theorem writeBytes_measured (h : length.lengthOf data = .ok n) :
    let units := unitsOf .wide (data.take n)
    writeBytes data length .whole (zeros (renderedLength units + 1)) =
      ⟨units.flatMap render ++ [0], [], .ok (renderedLength units)⟩ := by
  intro units
  rw [writeBytes, capacityOf_zeros, h]
  exact writeWithin_measured units

theorem ofBytes_of_lengthOf (h : length.lengthOf data = .ok n) :
    ofBytes data length = .ok (Text.ofBytes ((unitsOf .wide (data.take n)).flatMap render)) := by
  simp only [ofBytes, bytesLength_of_lengthOf h, writeBytes_measured h, Except.map]
  rw [← length_flatMap_render, List.take_left]

end Decoding

/-! ## What a bounded rendering keeps -/

/-- The outcome of a bounded rendering that keeps the first `k` units. -/
structure KeepsLongest (w : Width) (units : List Int) (capacity : Nat) (buffer : Bytes) (k : Nat)
    (outcome : Outcome Bytes) : Prop where
  longest : IsGreatest {j | j ≤ units.length ∧ unitsLength w (units.take j) < capacity} k
  result_eq : outcome.result = .ok (unitsLength w (units.take k))
  /-- The buffer begins with the text of these units alone. -/
  rendering : ∃ text, ofUnits w (units.take k) = .ok text ∧
    text.ascii? = .ok (outcome.content.take (unitsLength w (units.take k)))
  terminator : outcome.content[unitsLength w (units.take k)]? = some 0
  rest_eq : outcome.content.drop (unitsLength w (units.take k) + 1) =
    buffer.drop (unitsLength w (units.take k) + 1)
  log_eq : outcome.log =
    if k < units.length then [.quotingCut (unitsLength w (units.take k))] else []

theorem ascii?_flatMap_render (units : List CodeUnit) :
    (Text.ofBytes (units.flatMap render)).ascii? = .ok (units.flatMap render) := by
  apply Text.ascii?_ofBytes
  intro b mem
  have printable := printable_of_mem_flatMap_render mem
  unfold Printable at printable
  omega

section Masked

variable (w : Width) (units : List Int)

theorem length_flatMap_render_store :
    ((units.map w.store).flatMap render).length = unitsLength w units :=
  length_flatMap_render (units.map w.store)

theorem exists_writeWithin_eq {buffer : Bytes} {capacity : Nat} (pos : 0 < capacity)
    (le : capacity ≤ buffer.length) :
    ∃ k, IsGreatest {j | j ≤ units.length ∧ unitsLength w (units.take j) < capacity} k ∧
      writeWithin (units.map w.store) capacity buffer =
        ⟨((units.take k).map w.store).flatMap render ++
            0 :: buffer.drop (unitsLength w (units.take k) + 1),
          if k < units.length then [.quotingCut (unitsLength w (units.take k))] else [],
          .ok (unitsLength w (units.take k))⟩ := by
  have longest := isGreatest_length_fitting renderedSize pos (units.map w.store)
  have kept := fitting_eq_take renderedSize capacity (units.map w.store)
  have written : writeWithin (units.map w.store) capacity buffer = _ := writeWithin_eq pos le
  generalize (fitting renderedSize capacity (units.map w.store)).length = k at longest kept written
  simp only [List.length_map, ← List.map_take] at longest kept written
  have size : (units.take k).length = k := List.length_take_of_le longest.1.1
  refine ⟨k, longest, ?_⟩
  rw [written, kept, List.length_map, size]
  rfl

theorem exists_keepsLongest {buffer : Bytes} {capacity : Nat} (pos : 0 < capacity)
    (le : capacity ≤ buffer.length) :
    ∃ k, KeepsLongest w units capacity buffer k
      (writeWithin (units.map w.store) capacity buffer) := by
  obtain ⟨k, longest, written⟩ := exists_writeWithin_eq w units pos le
  have size := length_flatMap_render_store w (units.take k)
  have text := ofUnits_eq w (units.take k)
  have ascii := ascii?_flatMap_render ((units.take k).map w.store)
  rw [written]
  generalize ((units.take k).map w.store).flatMap render = bytes at size text ascii ⊢
  rw [← size]
  refine ⟨k, longest, congrArg Except.ok size, ⟨_, text, ?_⟩, ?_, ?_, ?_⟩
  · simpa [← size] using ascii
  all_goals simp [← size]

end Masked

theorem writeUnits_natCast (w : Width) (units : List Int) {buffer : Bytes} {capacity : Nat}
    (pos : 0 < capacity) (le : capacity ≤ buffer.length) :
    writeUnits w units (.int capacity) buffer =
      writeWithin (units.map w.store) capacity buffer := by
  rw [writeUnits, Size.capacityOf_natCast pos le]

theorem writeBytes_natCast {data buffer : Bytes} {n capacity : Nat} (inside : n ≤ data.length)
    (pos : 0 < capacity) (le : capacity ≤ buffer.length) :
    writeBytes data (.int n) (.int capacity) buffer =
      writeWithin (unitsOf .wide (data.take n)) capacity buffer := by
  rw [writeBytes, Size.capacityOf_natCast pos le, Size.lengthOf_natCast inside]

/-- Both `writeUnits` and `writeBytes` keep the longest rendering that fits, and no part of an escape. -/
theorem quoting_keeps_longest {buffer : Bytes} {capacity : Nat} (pos : 0 < capacity)
    (le : capacity ≤ buffer.length) :
    (∀ (w : Width) (units : List Int), ∃ k, KeepsLongest w units capacity buffer k
      (writeUnits w units (.int capacity) buffer)) ∧
    ∀ (data : Bytes) (n : Nat), n ≤ data.length → ∃ items k,
      ReadsFrom (decodeUnitAt .wide (data.take n)) n 0 items ∧
      KeepsLongest .wide (items.map fun d => (d.value.toNat : Int)) capacity buffer k
        (writeBytes data (.int n) (.int capacity) buffer) := by
  constructor
  · intro w units
    rw [writeUnits_natCast w units pos le]
    exact exists_keepsLongest w units pos le
  · intro data n inside
    refine ⟨scanUnits .wide (data.take n), ?_⟩
    simp only [readsFrom_take .wide inside, true_and]
    rw [writeBytes_natCast inside pos le, ← map_store_scanUnits]
    exact exists_keepsLongest .wide _ pos le

/-- Three letters and an escape that does not fit before a letter that would. -/
theorem quoting_keeps_longest_of_stray_lead :
    0 < 8 ∧ 8 ≤ ([7, 7, 7, 7, 7, 7, 7, 7, 7] : Bytes).length ∧
    5 ≤ ([0x41, 0x42, 0x43, 0xC3, 0x44, 0xA9] : Bytes).length ∧
    KeepsLongest .wide [0x41, 0x42, 0x43, 0x1000C3, 0x44] 8 [7, 7, 7, 7, 7, 7, 7, 7, 7] 3
      ⟨[0x41, 0x42, 0x43, 0, 7, 7, 7, 7, 7], [.quotingCut 3], .ok 3⟩ ∧
    ∃ items k, ReadsFrom (decodeUnitAt .wide [0x41, 0x42, 0x43, 0xC3, 0x44]) 5 0 items ∧
      KeepsLongest .wide (items.map fun d => (d.value.toNat : Int)) 8 [7, 7, 7, 7, 7, 7, 7, 7, 7] k
        ⟨[0x41, 0x42, 0x43, 0, 7, 7, 7, 7, 7], [.quotingCut 3], .ok 3⟩ := by
  have pos : 0 < 8 := by decide
  have le : 8 ≤ ([7, 7, 7, 7, 7, 7, 7, 7, 7] : Bytes).length := by decide
  have inside : 5 ≤ ([0x41, 0x42, 0x43, 0xC3, 0x44, 0xA9] : Bytes).length := by decide
  obtain ⟨fromUnits, fromBytes⟩ := quoting_keeps_longest pos le
  obtain ⟨k, kept⟩ := fromUnits .wide [0x41, 0x42, 0x43, 0x1000C3, 0x44]
  have three : k = 3 := by
    have ge : 3 ≤ k := kept.longest.2 ⟨by decide, by decide⟩
    have most : k ≤ 5 := kept.longest.1.1
    have fits := kept.longest.1.2
    obtain rfl | rfl | rfl : k = 3 ∨ k = 4 ∨ k = 5 := by omega
    · rfl
    · exact absurd fits (by decide)
    · exact absurd fits (by decide)
  rw [three] at kept
  exact ⟨pos, le, inside, kept, fromBytes _ 5 inside⟩

/-! ## Two sources of a text -/

/-- The text is the rendering of the units: it is as long as predicted, printable, and made of the
renderings of the single units, from which the buffer of the predicted size cuts nothing. -/
structure IsRendering (w : Width) (units : List Int) (text : Text) : Prop where
  ofUnits_eq : ofUnits w units = .ok text
  unitsLength_eq : unitsLength w units = text.length
  printable : ∀ c ∈ text, 0x20 ≤ c.val ∧ c.val ≤ 0x7E
  pieces : ∃ pieces, units.mapM (fun unit => ofUnits w [unit]) = .ok pieces ∧ pieces.flatten = text
  uncut : (writeUnits w units .whole (zeros (text.length + 1))).log = []

/-- The text is the rendering of the bytes that a length selects, uncut as well. -/
structure IsRenderingOfBytes (data : Bytes) (length : Size) (text : Text) : Prop where
  ofBytes_eq : ofBytes data length = .ok text
  bytesLength_eq : bytesLength data length = .ok text.length
  uncut : (writeBytes data length .whole (zeros (text.length + 1))).log = []

section Units

variable (units : List CodeUnit)

theorem length_ofBytes_flatMap_render :
    (Text.ofBytes (units.flatMap render)).length = renderedLength units := by
  rw [Text.ofBytes, List.length_map, length_flatMap_render]

theorem printable_of_mem_ofBytes {c : CodePoint} (h : c ∈ Text.ofBytes (units.flatMap render)) :
    0x20 ≤ c.val ∧ c.val ≤ 0x7E := by
  obtain ⟨b, mem, rfl⟩ := List.mem_map.1 h
  exact printable_of_mem_flatMap_render mem

end Units

theorem mapM_ofUnits (w : Width) (units : List Int) :
    units.mapM (fun unit => ofUnits w [unit]) =
      .ok (units.map fun unit => Text.ofBytes (render (w.store unit))) := by
  induction units with
  | nil => rfl
  | cons unit rest ih =>
    rw [List.mapM_cons, ih, ofUnits_eq]
    simp [bind, Except.bind, pure, Except.pure]

theorem flatten_map_render (w : Width) (units : List Int) :
    (units.map fun unit => Text.ofBytes (render (w.store unit))).flatten =
      Text.ofBytes ((units.map w.store).flatMap render) := by
  simp [Text.ofBytes, List.flatMap_def, List.map_flatten, Function.comp_def]

theorem isRendering (w : Width) (units : List Int) :
    IsRendering w units (Text.ofBytes ((units.map w.store).flatMap render)) where
  ofUnits_eq := ofUnits_eq w units
  unitsLength_eq := (length_ofBytes_flatMap_render (units.map w.store)).symm
  printable _ mem := printable_of_mem_ofBytes (units.map w.store) mem
  pieces := ⟨_, mapM_ofUnits w units, flatten_map_render w units⟩
  uncut := by
    rw [length_ofBytes_flatMap_render, ← unitsLength, writeUnits_measured]

theorem isRenderingOfBytes {data : Bytes} {length : Size} {n : Nat}
    (h : length.lengthOf data = .ok n) :
    IsRenderingOfBytes data length
      (Text.ofBytes ((unitsOf .wide (data.take n)).flatMap render)) where
  ofBytes_eq := ofBytes_of_lengthOf h
  bytesLength_eq := by rw [bytesLength_of_lengthOf h, length_ofBytes_flatMap_render]
  uncut := by rw [length_ofBytes_flatMap_render, writeBytes_measured h]

/-- `ofBytes` renders the units that a loop over offsets reads, as `ofUnits` does. -/
theorem ofBytes_eq_ofUnits :
    (∀ (data : Bytes) (n : Nat), n ≤ data.length → ∃ items text,
      ReadsFrom (decodeUnitAt .wide (data.take n)) n 0 items ∧
      IsRendering .wide (items.map fun d => (d.value.toNat : Int)) text ∧
      IsRenderingOfBytes data (.int n) text) ∧
    ∀ (w : Width) (units : List Int), ∃ data text,
      encodeMeasured w units = .ok data ∧
      (ModifiedUtf8.writeUnits w units .whole (zeros (data.length + 1))).log = [] ∧
      IsRendering w units text ∧ IsRenderingOfBytes data .whole text := by
  constructor
  · intro data n inside
    refine ⟨_, _, readsFrom_take .wide inside, isRendering .wide _, ?_⟩
    rw [map_store_scanUnits]
    exact isRenderingOfBytes (Size.lengthOf_natCast inside)
  · intro w units
    have all : Size.whole.lengthOf (encodeStored w units) = .ok (encodeStored w units).length := rfl
    have rendered := isRenderingOfBytes all
    rw [List.take_length, encodeStored, unitsOf_wide_encodeUnits] at rendered
    refine ⟨_, _, encodeMeasured_eq w units, ?_, isRendering w units, rendered⟩
    rw [writeUnits_whole_of_lt]
    simp [zeros, length_encodeStored]

/-- A letter and two bytes of a euro sign, which are units of their own. -/
theorem ofBytes_eq_ofUnits_of_cut_euro :
    3 ≤ ([0x41, 0xE2, 0x82, 0xAC] : Bytes).length ∧
    ∃ items text, text = Text.ofBytes
        [0x41, 0x5C, 0x75, 0x30, 0x30, 0x65, 0x32, 0x5C, 0x75, 0x30, 0x30, 0x38, 0x32] ∧
      ReadsFrom (decodeUnitAt .wide [0x41, 0xE2, 0x82]) 3 0 items ∧
      IsRendering .wide (items.map fun d => (d.value.toNat : Int)) text ∧
      IsRenderingOfBytes [0x41, 0xE2, 0x82, 0xAC] (.int 3) text := by
  have inside : 3 ≤ ([0x41, 0xE2, 0x82, 0xAC] : Bytes).length := by decide
  have run : ofBytes [0x41, 0xE2, 0x82, 0xAC] (.int 3) = .ok (Text.ofBytes
      [0x41, 0x5C, 0x75, 0x30, 0x30, 0x65, 0x32, 0x5C, 0x75, 0x30, 0x30, 0x38, 0x32]) := by decide
  obtain ⟨items, text, read, rendering, rendered⟩ := ofBytes_eq_ofUnits.1 _ 3 inside
  have same := rendered.ofBytes_eq.symm.trans run
  exact ⟨inside, items, text, Except.ok.inj same, read, rendering, rendered⟩

end Quoted

end ModifiedUtf8
