import ModifiedUtf8.Cli.Report
import ModifiedUtf8.Proofs.Rendering
import ModifiedUtf8.Proofs.RoundTrip

/-!
# Reports on many inputs

A step of either loop reads or reports one item and adds to the state, whatever the state is: inputs,
output, and a failure or none (`Adds`).  By induction over the items, a loop without a fault adds what
its steps add, in order (`forEach_adds`), and one with a fault ends there (`forEach_stops`).

`readStep_adds` and `reportStep_adds` are the steps.  Only two things end a loop: a path that cannot be
asked for, and a line that shows a name with a lone surrogate.  Without these the command writes what each
input adds by itself, and its status tells whether one of them failed (`run_treats_inputs_alone`).
-/

namespace ModifiedUtf8

/-! ## Printable texts -/

namespace Text

/-- No lone surrogate is in the text, so that it can be printed. -/
def IsPrintable (text : Text) : Prop := ∀ c ∈ text, c.isSurrogate = false

theorem isPrintable_append_iff {front back : Text} :
    (front ++ back).IsPrintable ↔ front.IsPrintable ∧ back.IsPrintable := List.forall_mem_append

theorem isPrintable_ofString (word : String) : (ofString word).IsPrintable := by
  intro c mem
  obtain ⟨char, -, rfl⟩ := List.mem_map.1 mem
  have valid := char.valid
  simp only [UInt32.isValidChar, Nat.isValidChar] at valid
  have value : (CodePoint.ofChar char).val = char.val.toNat := rfl
  simp only [CodePoint.isSurrogate, value, Bool.and_eq_false_iff, decide_eq_false_iff_not]
  omega

theorem isPrintable_ofBytes (data : Bytes) : (ofBytes data).IsPrintable := by
  intro c mem
  obtain ⟨b, -, rfl⟩ := List.mem_map.1 mem
  have bound := b.toNat_lt
  have value : (CodePoint.ofByte b).val = b.toNat := rfl
  simp only [CodePoint.isSurrogate, value, Bool.and_eq_false_iff, decide_eq_false_iff_not]
  omega

theorem exists_utf8?_iff {text : Text} : (∃ data, text.utf8? = .ok data) ↔ text.IsPrintable := by
  have known (c : CodePoint) :
      (if c.isSurrogate then none
        else some (String.utf8EncodeChar (Char.ofNat c.val))).isSome = true ↔
      c.isSurrogate = false := by
    cases c.isSurrogate <;> simp
  simp only [utf8?, encodeWith_eq_ok_iff, known]
  exact ⟨fun ⟨_, all, _⟩ => all, fun all => ⟨_, all, rfl⟩⟩

/-- A lone surrogate is reported the same way whatever printable text follows. -/
theorem utf8?_append {front back : Text} (bad : ¬ front.IsPrintable) (good : back.IsPrintable) :
    (front ++ back).utf8? = front.utf8? := by
  simp only [IsPrintable, not_forall] at bad
  obtain ⟨c, mem, surrogate⟩ := bad
  apply encodeWith_append
  · exact ⟨c, mem, by simpa using surrogate⟩
  · intro d head
    simp [good d (List.mem_of_mem_head? head)]

end Text

namespace Quoted

theorem isValue_of_tokensFrom {offset : Nat} {raw : Bytes} {fault : Fault}
    (h : tokensFrom offset raw = .error fault) : fault.isValue = true := by
  fun_induction tokensFrom offset raw with
  | case1 => cases h
  | case2 offset b rest other ih => exact ih (map_eq_error_iff.1 h)
  | case4 offset b isBackslash d3 d2 d1 d0 others u digits ih => exact ih (map_eq_error_iff.1 h)
  | case7 offset b isBackslash letter digits other c known ih => exact ih (map_eq_error_iff.1 h)
  | _ =>
    cases h
    rfl

theorem isValue_of_unquote {raw : Bytes} {fault : Fault} (h : unquote raw = .error fault) :
    fault.isValue = true := by
  rw [unquote_eq, map_eq_error_iff] at h
  exact isValue_of_tokensFrom h

end Quoted

namespace Cli

/-! ## Loops -/

/-- What a part of a run adds to the state. -/
structure Adds (before after : State) (inputs : List Input) (output : Bytes) (fails : Prop) :
    Prop where
  inputs_eq : after.inputs = before.inputs ++ inputs
  output_eq : after.output = before.output ++ output
  failed_iff : after.failed = true ↔ before.failed = true ∨ fails

namespace Adds

variable {first middle last : State}

theorem refl (state : State) : Adds state state [] [] False :=
  ⟨(List.append_nil _).symm, (List.append_nil _).symm, (iff_of_eq (or_false _)).symm⟩

theorem trans {inputs more : List Input} {output later : Bytes} {fails others : Prop}
    (front : Adds first middle inputs output fails) (back : Adds middle last more later others) :
    Adds first last (inputs ++ more) (output ++ later) (fails ∨ others) where
  inputs_eq := by rw [back.inputs_eq, front.inputs_eq, List.append_assoc]
  output_eq := by rw [back.output_eq, front.output_eq, List.append_assoc]
  failed_iff := by rw [back.failed_iff, front.failed_iff, or_assoc]

theorem of_iff {inputs : List Input} {output : Bytes} {fails others : Prop}
    (h : Adds first last inputs output fails) (same : fails ↔ others) :
    Adds first last inputs output others :=
  ⟨h.inputs_eq, h.output_eq, h.failed_iff.trans (or_congr_right same)⟩

variable (state : State)

theorem take (input : Input) : Adds state (state.take input) [input] [] False :=
  ⟨rfl, (List.append_nil _).symm, (iff_of_eq (or_false _)).symm⟩

theorem fail : Adds state state.fail [] [] True :=
  ⟨(List.append_nil _).symm, (List.append_nil _).symm, by simp [State.fail]⟩

theorem note (line : Text) : Adds state (state.note line) [] [] False := { refl state with }

theorem debug (verbose : Bool) (line : Text) : Adds state (state.debug verbose line) [] [] False := by
  unfold State.debug
  split
  · exact note state line
  · exact refl state

theorem write (data : Bytes) : Adds state (state.write data) [] (data ++ [0x0A]) False :=
  ⟨(List.append_nil _).symm, List.append_assoc .., (iff_of_eq (or_false _)).symm⟩

end Adds

section Loops

variable {α : Type} {step : State → α → Except Fault Unit × State} {inputs : α → List Input}
  {output : α → Bytes} {fails : α → Prop}

/-- The step ends without a fault and adds the same to any state. -/
def StepAdds (step : State → α → Except Fault Unit × State) (item : α) (inputs : List Input)
    (output : Bytes) (fails : Prop) : Prop :=
  ∀ state, ∃ after, step state item = (.ok (), after) ∧ Adds state after inputs output fails

theorem forEach_adds {items : List α}
    (steps : ∀ item ∈ items, StepAdds step item (inputs item) (output item) (fails item))
    (state : State) : ∃ after, forEach step state items = (.ok (), after) ∧
      Adds state after (items.flatMap inputs) (items.flatMap output) (∃ item ∈ items, fails item) := by
  induction items generalizing state with
  | nil => exact ⟨state, rfl, by simpa using Adds.refl state⟩
  | cons item rest ih =>
    rw [List.forall_mem_cons] at steps
    obtain ⟨middle, done, adds⟩ := steps.1 state
    obtain ⟨after, run, others⟩ := ih steps.2 middle
    refine ⟨after, ?_, ?_⟩
    · rw [forEach, done]
      exact run
    · simpa using adds.trans others

/-- A fault ends `forEach` with what the steps before it have added. -/
theorem forEach_stops {before : List α} {bad : α} {fault : Fault}
    (steps : ∀ item ∈ before, StepAdds step item (inputs item) (output item) (fails item))
    (ends : ∀ state, ∃ after, step state bad = (.error fault, after) ∧ after.output = state.output)
    (behind : List α) (state : State) :
    ∃ after, forEach step state (before ++ bad :: behind) = (.error fault, after) ∧
      after.output = state.output ++ before.flatMap output := by
  induction before generalizing state with
  | nil =>
    obtain ⟨after, stopped, same⟩ := ends state
    refine ⟨after, ?_, by simpa using same⟩
    rw [List.nil_append, forEach, stopped]
  | cons item before ih =>
    rw [List.forall_mem_cons] at steps
    obtain ⟨middle, done, adds⟩ := steps.1 state
    obtain ⟨after, run, written⟩ := ih steps.2 middle
    refine ⟨after, ?_, ?_⟩
    · rw [List.cons_append, forEach, done]
      exact run
    · rw [written, adds.output_eq, List.flatMap_cons, List.append_assoc]

end Loops

/-! ## Reading -/

section Reading

theorem flatMap_const_nil {α β : Type} (items : List α) :
    items.flatMap (fun _ => ([] : List β)) = [] := List.flatMap_eq_nil_iff.2 fun _ _ => rfl

variable {read : Path → Except ReadFailure Bytes}

/-- The system can be asked for every one of the files. -/
def Askable (read : Path → Except ReadFailure Bytes) (files : List Text) : Prop :=
  ∀ file ∈ files, ∀ fault, read (.ofText file) ≠ .error (.unaskable fault)

/-- The input that a file is, if it can be read. -/
def inputOf? (read : Path → Except ReadFailure Bytes) (file : Text) : Option Input :=
  (read (.ofText file)).toOption.map fun data => ⟨file, data⟩

/-- The system refuses the file. -/
def Unreadable (read : Path → Except ReadFailure Bytes) (file : Text) : Prop :=
  ∃ error, read (.ofText file) = .error (.system error)

theorem readStep_adds {file : Text}
    (askable : ∀ fault, read (.ofText file) ≠ .error (.unaskable fault)) :
    StepAdds (readStep read) file (inputOf? read file).toList [] (Unreadable read file) := by
  intro state
  unfold readStep inputOf? Unreadable
  cases found : read (.ofText file) with
  | ok data => exact ⟨_, rfl, (Adds.take state _).of_iff (by simp)⟩
  | error failure =>
    cases failure with
    | system error => exact ⟨_, rfl, ((Adds.note state _).trans (Adds.fail _)).of_iff (by simp)⟩
    | unaskable fault => exact absurd found (askable fault)

theorem readStep_of_unaskable {file : Text} {fault : Fault}
    (found : read (.ofText file) = .error (.unaskable fault)) (state : State) :
    readStep read state file = (.error fault, state) := by
  rw [readStep, found]

/-- The inputs to report on: the files that can be read, or standard input without any. -/
def inputsOf (read : Path → Except ReadFailure Bytes) (stdin : Bytes) (files : List Text) :
    List Input :=
  if files = [] then [⟨.ofString "stdin", stdin⟩] else files.filterMap (inputOf? read)

theorem readAll_adds {files : List Text} (askable : Askable read files) (stdin : Bytes) :
    ∃ state, readAll read stdin files = (.ok (), state) ∧
      Adds .start state (inputsOf read stdin files) [] (∃ file ∈ files, Unreadable read file) := by
  unfold readAll inputsOf
  cases files with
  | nil => exact ⟨_, rfl, (Adds.take .start _).of_iff (by simp)⟩
  | cons file rest =>
    have steps := fun f (mem : f ∈ file :: rest) => readStep_adds (askable f mem)
    obtain ⟨state, run, adds⟩ := forEach_adds steps .start
    rw [flatMap_const_nil, ← List.filterMap_eq_flatMap_toList] at adds
    exact ⟨state, run, adds⟩

theorem readAll_stops {before behind : List Text} {file : Text} {fault : Fault}
    (askable : Askable read before) (found : read (.ofText file) = .error (.unaskable fault))
    (stdin : Bytes) : ∃ state,
      readAll read stdin (before ++ file :: behind) = (.error fault, state) ∧ state.output = [] := by
  have steps := fun f (mem : f ∈ before) => readStep_adds (askable f mem)
  obtain ⟨state, run, written⟩ :=
    forEach_stops steps (fun state => ⟨state, readStep_of_unaskable found state, rfl⟩) behind .start
  rw [flatMap_const_nil] at written
  refine ⟨state, ?_, written⟩
  rw [readAll, if_neg (by simp)]
  exact run

end Reading

/-! ## Reporting -/

/-- The bytes of an input are refused: by the reader of quoted-ascii, without their line end, where that
is read, and by the validator otherwise. -/
def Refused (legacy : Bool) (mode : Mode) (data : Bytes) : Prop :=
  if mode = .unquote then ∃ fault, Quoted.unquote (withoutLineEnd data) = .error fault
  else isLegalWithin data .whole legacy = .ok false

/-- The mode prints the name of an input, and a lone surrogate is in the way. -/
def Unprintable (mode : Mode) (name : Text) : Prop :=
  (mode = .describe ∨ mode = .quote) ∧ ¬ name.IsPrintable

/-- What is written for an input by itself. -/
def shown (legacy : Bool) (mode : Mode) (input : Input) : Bytes :=
  (reportStep ⟨legacy, mode, false⟩ .start input).2.output

section Reporting

variable (legacy : Bool) (mode : Mode) (input : Input)

/-- A line is the name, where the mode prints it, and something printable. -/
theorem exists_reportLine_eq (legal : Bool) : ∃ tail : Text, tail.IsPrintable ∧
    reportLine mode input legal =
      .ok ((if mode = .minimal then [] else input.name) ++ tail) := by
  have word := Text.isPrintable_ofString
  cases mode with
  | minimal =>
    refine ⟨Text.ofString (if legal then "legal" else "illegal"), word _, ?_⟩
    cases legal <;> rfl
  | describe | unquote => cases legal <;> exact ⟨_, word _, rfl⟩
  | quote =>
    cases legal with
    | false => exact ⟨_, word _, rfl⟩
    | true =>
      have all : Size.whole.lengthOf input.data = .ok input.data.length := rfl
      simp only [reportLine, Quoted.ofBytes_of_lengthOf all, Except.map, List.append_assoc]
      exact ⟨_, Text.isPrintable_append_iff.2 ⟨word _, Text.isPrintable_ofBytes _⟩, rfl⟩

theorem exists_report_eq (checks : mode ≠ .unquote) (printable : ¬ Unprintable mode input.name) :
    ∃ line, ∀ verbose state, report ⟨legacy, mode, verbose⟩ state input =
      (.ok (isLegal legacy input.data), (state.debug verbose
        (debugLine input.name input.data (isLegal legacy input.data))).write line) := by
  obtain ⟨tail, good, line⟩ := exists_reportLine_eq mode input (isLegal legacy input.data)
  have name : Text.IsPrintable (if mode = .minimal then [] else input.name) := by
    split
    · exact fun c mem => by cases mem
    · next other =>
      by_contra bad
      refine printable ⟨?_, bad⟩
      cases mode <;> simp at other checks ⊢
  obtain ⟨data, encoded⟩ := Text.exists_utf8?_iff.2 (Text.isPrintable_append_iff.2 ⟨name, good⟩)
  refine ⟨data, fun verbose state => ?_⟩
  simp only [report, line, State.print, encoded]

/-- Reading quoted-ascii writes what was read, or it fails and writes nothing. -/
theorem exists_reportStep_unquote_adds : ∃ output : Bytes,
    (output = [] ↔ Refused legacy .unquote input.data) ∧
    ∀ verbose, StepAdds (reportStep ⟨legacy, .unquote, verbose⟩) input [] output
      (Refused legacy .unquote input.data) := by
  unfold Refused
  cases read : Quoted.unquote (withoutLineEnd input.data) with
  | ok data =>
    refine ⟨data ++ [0x0A], by simp, fun verbose state => ⟨state.write data, ?_, ?_⟩⟩
    · simp [reportStep, read]
    · exact (Adds.write state data).of_iff (by simp)
  | error fault =>
    have caught := Quoted.isValue_of_unquote read
    refine ⟨[], by simp, fun verbose state => ?_⟩
    have failed := (Adds.note state (failureLine input.name (Text.ofString fault.message))).trans
      (Adds.fail _)
    refine ⟨_, ?_, failed.of_iff (by simp)⟩
    simp [reportStep, read, caught]

/-- A report is always written, and it fails for illegal bytes. -/
theorem exists_reportStep_check_adds (checks : mode ≠ .unquote)
    (printable : ¬ Unprintable mode input.name) : ∃ output : Bytes, output ≠ [] ∧
    ∀ verbose, StepAdds (reportStep ⟨legacy, mode, verbose⟩) input [] output
      (Refused legacy mode input.data) := by
  obtain ⟨line, reported⟩ := exists_report_eq legacy mode input checks printable
  refine ⟨line ++ [0x0A], by simp, fun verbose state => ?_⟩
  have refused : Refused legacy mode input.data ↔ isLegal legacy input.data = false := by
    simp [Refused, checks, isLegalWithin_whole]
  rw [reportStep, if_neg checks, reported, refused]
  generalize isLegal legacy input.data = legal
  have written := (Adds.debug state verbose (debugLine input.name input.data legal)).trans
    (Adds.write _ line)
  cases legal with
  | true => exact ⟨_, rfl, written.of_iff (by simp)⟩
  | false =>
    have failed := written.trans (Adds.fail _)
    simp only [List.append_nil, List.nil_append] at failed
    exact ⟨_, rfl, failed.of_iff (by simp)⟩

/-- What `reportStep` adds depends on neither the state nor debugging. -/
theorem exists_reportStep_adds (printable : ¬ Unprintable mode input.name) : ∃ output : Bytes,
    (output = [] ↔ mode = .unquote ∧ Refused legacy mode input.data) ∧
    ∀ verbose, StepAdds (reportStep ⟨legacy, mode, verbose⟩) input [] output
      (Refused legacy mode input.data) := by
  by_cases unquoting : mode = .unquote
  · subst unquoting
    simpa using exists_reportStep_unquote_adds legacy input
  · obtain ⟨output, written, adds⟩ :=
      exists_reportStep_check_adds legacy mode input unquoting printable
    exact ⟨output, by simp [written, unquoting], adds⟩

theorem reportStep_of_unprintable (bad : Unprintable mode input.name) : ∃ fault,
    input.name.utf8? = .error fault ∧ ∀ verbose state, ∃ after,
      reportStep ⟨legacy, mode, verbose⟩ state input = (.error fault, after) ∧
      after.output = state.output := by
  obtain ⟨prints, surrogate⟩ := bad
  obtain ⟨tail, good, line⟩ := exists_reportLine_eq mode input (isLegal legacy input.data)
  have shows : mode ≠ .minimal ∧ mode ≠ .unquote := by
    rcases prints with rfl | rfl <;> decide
  rw [if_neg shows.1] at line
  cases encoded : input.name.utf8? with
  | ok data => exact absurd (Text.exists_utf8?_iff.1 ⟨data, encoded⟩) surrogate
  | error fault =>
    have refused : (input.name ++ tail).utf8? = .error fault :=
      (Text.utf8?_append surrogate good).trans encoded
    refine ⟨fault, rfl, fun verbose state => ?_⟩
    have noted := Adds.debug state verbose
      (debugLine input.name input.data (isLegal legacy input.data))
    refine ⟨_, ?_, noted.output_eq.trans (List.append_nil _)⟩
    simp [reportStep, report, line, State.print, refused, shows]

theorem shown_of_stepAdds {output : Bytes}
    (adds : StepAdds (reportStep ⟨legacy, mode, false⟩) input [] output
      (Refused legacy mode input.data)) : shown legacy mode input = output := by
  obtain ⟨after, run, added⟩ := adds .start
  rw [shown, run]
  exact added.output_eq

theorem shown_eq_nil_iff (printable : ¬ Unprintable mode input.name) :
    shown legacy mode input = [] ↔ mode = .unquote ∧ Refused legacy mode input.data := by
  obtain ⟨output, empty, adds⟩ := exists_reportStep_adds legacy mode input printable
  rw [shown_of_stepAdds legacy mode input (adds false)]
  exact empty

theorem reportStep_adds {options : Options} (printable : ¬ Unprintable options.mode input.name) :
    StepAdds (reportStep options) input [] (shown options.legacy options.mode input)
      (Refused options.legacy options.mode input.data) := by
  obtain ⟨output, -, adds⟩ := exists_reportStep_adds options.legacy options.mode input printable
  rw [shown_of_stepAdds options.legacy options.mode input (adds false)]
  exact adds options.verbose

end Reporting

/-! ## Runs -/

section Runs

variable {options : Options} {read : Path → Except ReadFailure Bytes} {stdin : Bytes}
  {files : List Text}

/-- A file cannot be read, or an input is refused. -/
def SomeFails (options : Options) (read : Path → Except ReadFailure Bytes) (stdin : Bytes)
    (files : List Text) : Prop :=
  (∃ file ∈ files, Unreadable read file) ∨
    ∃ input ∈ inputsOf read stdin files, Refused options.legacy options.mode input.data

theorem check_adds (askable : Askable read files)
    (printable : ∀ input ∈ inputsOf read stdin files, ¬ Unprintable options.mode input.name) :
    ∃ state, check options read stdin files = (.ok (), state) ∧
      state.output =
        (inputsOf read stdin files).flatMap (shown options.legacy options.mode) ∧
      (state.failed = true ↔ SomeFails options read stdin files) := by
  obtain ⟨middle, taken, first⟩ := readAll_adds askable stdin
  have inputs : middle.inputs = inputsOf read stdin files := first.inputs_eq
  have steps := fun input mem => reportStep_adds input (printable input mem)
  obtain ⟨state, run, second⟩ := forEach_adds steps middle
  have both := first.trans second
  refine ⟨state, ?_, both.output_eq, ?_⟩
  · rw [check, taken, ← inputs] at *
    exact run
  · simpa [State.start, SomeFails] using both.failed_iff

/-- `check` ends at the first input whose name cannot be printed. -/
theorem check_stops {before behind : List Input} {bad : Input} (askable : Askable read files)
    (split : inputsOf read stdin files = before ++ bad :: behind)
    (printable : ∀ input ∈ before, ¬ Unprintable options.mode input.name)
    (unprintable : Unprintable options.mode bad.name) : ∃ fault state,
      bad.name.utf8? = .error fault ∧ check options read stdin files = (.error fault, state) ∧
      state.output = before.flatMap (shown options.legacy options.mode) := by
  obtain ⟨middle, taken, first⟩ := readAll_adds askable stdin
  have inputs : middle.inputs = before ++ bad :: behind := first.inputs_eq.trans split
  obtain ⟨fault, named, ends⟩ := reportStep_of_unprintable options.legacy options.mode bad unprintable
  have steps := fun input mem => reportStep_adds input (printable input mem)
  obtain ⟨state, run, written⟩ := forEach_stops steps (ends options.verbose) behind middle
  refine ⟨fault, state, named, ?_, ?_⟩
  · rw [check, taken]
    simp only [inputs]
    exact run
  · rw [written, first.output_eq]
    rfl

theorem run_of_check {args : List Text} (request : Request.ofWords args = .check options files) :
    run args read stdin = .ofState (check options read stdin files) := by
  rw [run, request]
  rfl

end Runs

/-- `run` writes what each input adds alone, and ends early only at a path or a name that it cannot use. -/
theorem run_treats_inputs_alone {args files : List Text} {options : Options}
    (request : Request.ofWords args = .check options files)
    (read : Path → Except ReadFailure Bytes) (stdin : Bytes) :
    let inputs := inputsOf read stdin files
    let output (items : List Input) := items.flatMap (shown options.legacy options.mode)
    let answer := run args read stdin
    (Askable read files → (∀ input ∈ inputs, ¬ Unprintable options.mode input.name) →
      answer.output = output inputs ∧
      (answer.ending = .status 1 ↔ SomeFails options read stdin files) ∧
      (answer.ending = .status 0 ↔ ¬ SomeFails options read stdin files)) ∧
    (Askable read files → ∀ before bad behind, inputs = before ++ bad :: behind →
      (∀ input ∈ before, ¬ Unprintable options.mode input.name) →
      Unprintable options.mode bad.name →
      ∃ fault, bad.name.utf8? = .error fault ∧ answer.ending = .fault fault ∧
        answer.output = output before) ∧
    (∀ before file behind fault, files = before ++ file :: behind → Askable read before →
      read (.ofText file) = .error (.unaskable fault) →
      answer.ending = .fault fault ∧ answer.output = []) ∧
    ∀ input : Input, ¬ Unprintable options.mode input.name →
      (shown options.legacy options.mode input = [] ↔
        options.mode = .unquote ∧ Refused options.legacy options.mode input.data) := by
  intro inputs output answer
  have answer_eq : answer = .ofState (check options read stdin files) := run_of_check request
  rw [answer_eq]
  refine ⟨fun askable printable => ?_, fun askable before bad behind split printable unprintable => ?_,
    fun before file behind fault split askable found => ?_,
    fun input printable => shown_eq_nil_iff _ _ input printable⟩
  · obtain ⟨state, checked, written, failed⟩ := check_adds askable printable
    rw [checked, ← failed]
    exact ⟨written, by simp [Answer.ofState], by simp [Answer.ofState]⟩
  · obtain ⟨fault, state, named, checked, written⟩ := check_stops askable split printable unprintable
    rw [checked]
    exact ⟨fault, named, rfl, written⟩
  · obtain ⟨state, stopped, written⟩ := readAll_stops askable found stdin
    rw [check, split, stopped]
    exact ⟨rfl, written⟩

/-- A missing file between an illegal and a legal one. -/
theorem run_treats_inputs_alone_of_missing_file :
    let a := Text.ofString "a"
    let b := Text.ofString "b"
    let c := Text.ofString "c"
    let read := (FileTree.ofNames [(a, [0x00]), (c, [0x41])]).read
    let args := [Text.ofString "--minimal", a, b, c]
    Request.ofWords args = .check ⟨false, .minimal, false⟩ [a, b, c] ∧
    Askable read [a, b, c] ∧ Unreadable read b ∧
    (run args read []).output =
      shown false .minimal ⟨a, [0x00]⟩ ++ shown false .minimal ⟨c, [0x41]⟩ ∧
    (run args read []).ending = .status 1 := by
  intro a b c read args
  have request : Request.ofWords args = .check ⟨false, .minimal, false⟩ [a, b, c] := by
    decide +kernel
  have illegal : read (.ofText a) = .ok [0x00] := by decide +kernel
  have missing : read (.ofText b) = .error (.system .noSuchFile) := by decide +kernel
  have legal : read (.ofText c) = .ok [0x41] := by decide +kernel
  have askable : Askable read [a, b, c] := by simp [Askable, illegal, missing, legal]
  have inputs : inputsOf read [] [a, b, c] = [⟨a, [0x00]⟩, ⟨c, [0x41]⟩] := by decide +kernel
  obtain ⟨alone, -, -, -⟩ := run_treats_inputs_alone request read []
  have printable (input : Input) : ¬ Unprintable Mode.minimal input.name := by simp [Unprintable]
  obtain ⟨written, fails, -⟩ := alone askable fun input _ => printable input
  rw [inputs] at written
  exact ⟨request, askable, ⟨_, missing⟩, written,
    fails.2 (Or.inl ⟨b, by simp, _, missing⟩)⟩

/-- A path with a zero byte and a name with a lone surrogate each hide a legal file behind them. -/
theorem run_stops_at_uncaught_faults :
    let a := Text.ofString "a"
    let read := (FileTree.ofNames [(a, [0x41]), ([0xDC80], [0x41])]).read
    run [a] read [] = ⟨.status 0, "a: legal, 1 characters, latin1\n".toUTF8.toList, []⟩ ∧
    run [[0x61, 0], a] read [] = ⟨.fault .nulInPath, [], []⟩ ∧
    run [[0xDC80], a] read [] = ⟨.fault (.notScalar 0xDC80 0 1), [], []⟩ ∧
    (¬ ∃ alone : Options → Input → Bytes, ∀ args options files read stdin,
      Request.ofWords args = .check options files →
      (run args read stdin).output = (inputsOf read stdin files).flatMap (alone options)) ∧
    ¬ ∀ args options files read stdin, Request.ofWords args = .check options files →
      ¬ SomeFails options read stdin files → Askable read files →
      (run args read stdin).ending = .status 0 := by
  intro a read
  have single : run [a] read [] =
      ⟨.status 0, "a: legal, 1 characters, latin1\n".toUTF8.toList, []⟩ := by decide +kernel
  have nul : run [[0x61, 0], a] read [] = ⟨.fault .nulInPath, [], []⟩ := by decide +kernel
  have surrogate : run [[0xDC80], a] read [] = ⟨.fault (.notScalar 0xDC80 0 1), [], []⟩ := by
    decide +kernel
  refine ⟨single, nul, surrogate, ?_, ?_⟩
  · rintro ⟨alone, each⟩
    have one := each [a] .usual [a] read [] (by decide +kernel)
    have two := each [[0x61, 0], a] .usual [[0x61, 0], a] read [] (by decide +kernel)
    have same : inputsOf read [] [[0x61, 0], a] = inputsOf read [] [a] := by decide +kernel
    rw [same, ← one, single, nul] at two
    exact absurd two (by decide +kernel)
  · intro zero
    have first : read (.ofText [0xDC80]) = .ok [0x41] := by decide +kernel
    have second : read (.ofText a) = .ok [0x41] := by decide +kernel
    have inputs : inputsOf read [] [[0xDC80], a] = [⟨[0xDC80], [0x41]⟩, ⟨a, [0x41]⟩] := by
      decide +kernel
    have legal : ¬ Refused false .describe [0x41] := by
      simp [Refused, isLegalWithin_whole]
      decide
    have status := zero [[0xDC80], a] .usual [[0xDC80], a] read [] (by decide +kernel)
      (by simp [SomeFails, Unreadable, first, second, inputs, Options.usual, legal])
      (by simp [Askable, first, second])
    rw [surrogate] at status
    cases status

end Cli

end ModifiedUtf8
