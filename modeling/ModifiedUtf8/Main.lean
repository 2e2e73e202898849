import ModifiedUtf8.Cli.Report

/-!
# The command

Reads the files that the command line names, or standard input, and prints the answer.
-/

namespace ModifiedUtf8

namespace Cli

/-- The failure with a number and a text of the system.  Some numbers arrive negated, as words of 32
bits, and some texts in lower case. -/
def SystemError.ofNumber (number : UInt32) (text : String) : SystemError :=
  let code := number.toNat
  ⟨if code < 0x80000000 then code else 0x100000000 - code, text.capitalize⟩

def SystemError.ofError (error : IO.Error) : SystemError :=
  match error with
  | .noFileOrDirectory _ number text | .interrupted _ number text => .ofNumber number text
  | .alreadyExists _ number text | .invalidArgument _ number text
  | .permissionDenied _ number text | .resourceExhausted _ number text
  | .inappropriateType _ number text | .noSuchThing _ number text => .ofNumber number text
  | other => ⟨5, toString other⟩

/-- A text as it is written to the error stream, surrogates as escapes. -/
def shownText (text : Text) : String :=
  String.ofList (text.flatMap fun c =>
    if c.isSurrogate then Literal.numericEscape c.val else [Char.ofNat c.val])

def readFile (path : Path) : IO (Except ReadFailure Bytes) := do
  match path.bytes? with
  | .error fault => return .error (.unaskable fault)
  | .ok _ =>
    try
      let data ← IO.FS.readBinFile (shownText path.toText)
      return .ok data.toList
    catch error => return .error (.system (.ofError error))

partial def readStream (stream : IO.FS.Stream) (taken : ByteArray) : IO ByteArray := do
  let block ← stream.read 65536
  if block.isEmpty then return taken else readStream stream (taken ++ block)

/-- The answer to a command line, with the files and the standard input of the system. -/
def runInSystem (args : List Text) : IO Answer := do
  match (Request.ofWords args).answer? with
  | .ok answer => return answer
  | .error (options, files) =>
    let paths := files.map Path.ofText
    let contents := paths.zip (← paths.mapM readFile)
    let stdin ← if files.isEmpty then readStream (← IO.getStdin) ByteArray.empty else pure .empty
    let read (path : Path) := (contents.lookup path).getD (.error (.system .noSuchFile))
    return .ofState (check options read stdin.toList files)

end Cli

end ModifiedUtf8

open ModifiedUtf8 in
/-- Runs the command and gives its exit status, which is one after a fault. -/
def main (args : List String) : IO UInt32 := do
  let answer ← Cli.runInSystem (args.map Text.ofString)
  let stderr ← IO.getStderr
  stderr.putStr (Cli.shownText answer.errors)
  (← IO.getStdout).write ⟨answer.output.toArray⟩
  match answer.ending with
  | .status code => return code.toUInt32
  | .fault cause =>
    stderr.putStr (cause.message ++ "\n")
    return 1
