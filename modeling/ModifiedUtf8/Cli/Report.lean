import ModifiedUtf8.Cli.Files
import ModifiedUtf8.Cli.Options
import ModifiedUtf8.Legal
import ModifiedUtf8.Quoted

/-!
# Reports

The command first reads all files, or standard input without any, and then reports on what it read.
Both are loops over a `State`: what was read, whether something failed, and what was written.  A file
that the system refuses is a failure that the loop goes on after, but a fault that nothing catches ends
the run: a path that cannot be asked for, or a line with a lone surrogate, which cannot be printed.  The
error stream takes any text.

`check` is the two loops and `run` the whole command, given a way to read files.
-/

namespace ModifiedUtf8

namespace Cli

structure Input where
  name : Text
  data : Bytes
  deriving DecidableEq, Repr

/-- What the command has done so far. -/
structure State where
  inputs : List Input
  failed : Bool
  output : Bytes
  errors : Text
  deriving DecidableEq, Repr

namespace State

def start : State := ⟨[], false, [], []⟩

/-- Keeps an input to report on. -/
def take (state : State) (input : Input) : State := { state with inputs := state.inputs ++ [input] }

def fail (state : State) : State := { state with failed := true }

/-- Leaves a line on the error stream. -/
def note (state : State) (line : Text) : State := { state with errors := state.errors ++ line }

/-- Leaves a line for debugging, where that is asked for. -/
def debug (state : State) (verbose : Bool) (line : Text) : State :=
  if verbose then state.note line else state

/-- Writes bytes and a line end. -/
def write (state : State) (data : Bytes) : State :=
  { state with output := state.output ++ data ++ [0x0A] }

/-- Prints a line; one that cannot be encoded leaves nothing behind. -/
def print (state : State) (line : Text) : Except Fault Unit × State :=
  match line.utf8? with
  | .error fault => (.error fault, state)
  | .ok data => (.ok (), state.write data)

end State

/-- Takes a step for each item, up to the first fault. -/
def forEach {α : Type} (step : State → α → Except Fault Unit × State) (state : State) :
    List α → Except Fault Unit × State
  | [] => (.ok (), state)
  | item :: rest =>
    match step state item with
    | (.error fault, after) => (.error fault, after)
    | (.ok (), after) => forEach step after rest

def failureLine (name message : Text) : Text :=
  Text.ofString "mutf8check: " ++ name ++ Text.ofString ": " ++ message ++ Text.ofString "\n"

/-! ## Reading -/

/-- Reads a file, or tells why the system refuses it. -/
def readStep (read : Path → Except ReadFailure Bytes) (state : State) (file : Text) :
    Except Fault Unit × State :=
  match read (.ofText file) with
  | .ok data => (.ok (), state.take ⟨file, data⟩)
  | .error (.system error) =>
    (.ok (), (state.note (failureLine file (error.message (.ofText file)))).fail)
  | .error (.unaskable fault) => (.error fault, state)

/-- Reads all files, or standard input without any. -/
def readAll (read : Path → Except ReadFailure Bytes) (stdin : Bytes) (files : List Text) :
    Except Fault Unit × State :=
  if files.isEmpty then (.ok (), State.start.take ⟨.ofString "stdin", stdin⟩)
  else forEach (readStep read) .start files

/-! ## Reporting -/

/-- The bytes without the carriage returns and line feeds at the end. -/
def withoutLineEnd (data : Bytes) : Bytes :=
  (data.reverse.dropWhile fun b => b == 0x0D || b == 0x0A).reverse

def description (data : Bytes) : String :=
  let m := measureCounted data
  "legal, " ++ toString m.length ++ " characters" ++ (if m.isLatin1 then ", latin1" else "")

def debugLine (name : Text) (data : Bytes) (legal : Bool) : Text :=
  Text.ofString "DEBUG:mutf8.cli:" ++ name ++
    Text.ofString (": " ++ toString data.length ++ " bytes, legal=" ++
      (if legal then "True" else "False") ++ "\n")

/-- What is printed for bytes that were found legal or not. -/
def reportLine (mode : Mode) (input : Input) (legal : Bool) : Except Fault Text :=
  match mode, legal with
  | .minimal, true => .ok (Text.ofString "legal")
  | .minimal, false => .ok (Text.ofString "illegal")
  | _, false => .ok (input.name ++ Text.ofString ": illegal")
  | .quote, true =>
    (Quoted.ofBytes input.data .whole).map fun shown => input.name ++ Text.ofString ": " ++ shown
  | _, true => .ok (input.name ++ Text.ofString (": " ++ description input.data))

/-- Prints the line for an input and tells whether its bytes are legal. -/
def report (options : Options) (state : State) (input : Input) : Except Fault Bool × State :=
  let legal := isLegal options.legacy input.data
  let noted := state.debug options.verbose (debugLine input.name input.data legal)
  match reportLine options.mode input legal with
  | .error fault => (.error fault, noted)
  | .ok line =>
    match noted.print line with
    | (.error fault, after) => (.error fault, after)
    | (.ok (), after) => (.ok legal, after)

/-- Converts an input or reports on it.  Only a bad value is caught when it is converted. -/
def reportStep (options : Options) (state : State) (input : Input) : Except Fault Unit × State :=
  if options.mode = .unquote then
    match Quoted.unquote (withoutLineEnd input.data) with
    | .error fault =>
      if fault.isValue then
        (.ok (), (state.note (failureLine input.name (Text.ofString fault.message))).fail)
      else (.error fault, state)
    | .ok data => (.ok (), state.write data)
  else
    match report options state input with
    | (.error fault, after) => (.error fault, after)
    | (.ok legal, after) => (.ok (), if legal then after else after.fail)

/-! ## The command -/

/-- Reads everything and reports on it. -/
def check (options : Options) (read : Path → Except ReadFailure Bytes) (stdin : Bytes)
    (files : List Text) : Except Fault Unit × State :=
  match readAll read stdin files with
  | (.error fault, state) => (.error fault, state)
  | (.ok (), state) => forEach (reportStep options) state state.inputs

/-- How a run ends: with an exit status, or by a fault that nothing catches. -/
inductive Ending where
  | status (code : Nat)
  | fault (cause : Fault)
  deriving DecidableEq, Repr

/-- What is left of a run: its end and what was written. -/
structure Answer where
  ending : Ending
  output : Bytes
  errors : Text
  deriving DecidableEq, Repr

def Answer.ofState : Except Fault Unit × State → Answer
  | (.ok (), state) =>
    ⟨.status (if state.failed then 1 else 0), state.output, state.errors⟩
  | (.error fault, state) => ⟨.fault fault, state.output, state.errors⟩

/-- The answer to a request that needs no input, or the options and files of one that does. -/
def Request.answer? : Request → Except (Options × List Text) Answer
  | help => .ok ⟨.status 0, helpText.toUTF8.toList, []⟩
  | version => .ok ⟨.status 0, versionText.toUTF8.toList, []⟩
  | misuse cause =>
    .ok ⟨.status 2, [],
      Text.ofString usage ++ Text.ofString "mutf8check: error: " ++ cause.message ++ Text.ofString "\n"⟩
  | check options files => .error (options, files)

def run (args : List Text) (read : Path → Except ReadFailure Bytes) (stdin : Bytes) : Answer :=
  match (Request.ofWords args).answer? with
  | .ok answer => answer
  | .error (options, files) => .ofState (check options read stdin files)

end Cli

end ModifiedUtf8
