import ModifiedUtf8.Fault

/-!
# Options of the command

The command line is a list of words.  Every word before `--` is first told apart as a file, an
option or an unknown option; then the options take effect from left to right, and the first run of
files in a row are the files to check.  A long option may be cut short as long as only one option
begins like it, and one-letter options may be joined behind one dash.

`Request.ofWords` gives what the words ask for.  Words are texts, since a file may have any name.
-/

namespace ModifiedUtf8

namespace Cli

inductive Flag where
  | help
  | legacy
  | quote
  | unquote
  | minimal
  | verbose
  | version
  deriving DecidableEq, Repr

namespace Flag

/-- All options, in the order in which they are listed. -/
def all : List Flag := [help, legacy, quote, unquote, minimal, verbose, version]

def spellings : Flag → List Text
  | help => [Text.ofString "-h", Text.ofString "--help"]
  | legacy => [Text.ofString "--legacy"]
  | quote => [Text.ofString "--quote"]
  | unquote => [Text.ofString "--unquote"]
  | minimal => [Text.ofString "--minimal"]
  | verbose => [Text.ofString "-v", Text.ofString "--verbose"]
  | version => [Text.ofString "--version"]

def name (flag : Flag) : Text := List.intercalate (Text.ofString "/") flag.spellings

end Flag

def spellingTable : List (Text × Flag) :=
  Flag.all.flatMap fun flag => flag.spellings.map fun spelling => (spelling, flag)

def flagSpelled? (spelling : Text) : Option Flag := spellingTable.lookup spelling

/-! ## Misuse -/

inductive Misuse where
  /-- A word begins several options. -/
  | ambiguous (word : Text) (candidates : List Text)
  /-- A text is attached to an option that takes none. -/
  | attached (flag : Flag) (text : Text)
  /-- An option excludes one that was given before. -/
  | conflict (flag earlier : Flag)
  /-- Words are neither options nor files. -/
  | unrecognized (words : List Text)
  deriving DecidableEq, Repr

def Misuse.message : Misuse → Text
  | ambiguous word candidates =>
    Text.ofString "ambiguous option: " ++ word ++ Text.ofString " could match " ++
      List.intercalate (Text.ofString ", ") candidates
  | attached flag text =>
    Text.ofString "argument " ++ flag.name ++ Text.ofString ": ignored explicit argument " ++
      Text.ofString (Literal.ofText text)
  | conflict flag earlier =>
    Text.ofString "argument " ++ flag.name ++ Text.ofString ": not allowed with argument " ++ earlier.name
  | unrecognized words =>
    Text.ofString "unrecognized arguments: " ++ List.intercalate (Text.ofString " ") words

/-! ## Telling words apart -/

inductive Word where
  | file (text : Text)
  /-- An option with its spelling and the text attached to it. -/
  | option (flag : Flag) (spelling : Text) (attached : Option Text)
  | unknown (text : Text)
  deriving DecidableEq, Repr

def dash : CodePoint := CodePoint.ofChar '-'

/-- What stands before and after the first equals sign. -/
def splitAtEquals (word : Text) : Option (Text × Text) :=
  match word.span (· != CodePoint.ofChar '=') with
  | (_, []) => none
  | (before, _ :: after) => some (before, after)

/-- The spellings that a word begins, each with the text that is then attached.  Behind two dashes
these are the options that begin like the word up to an equals sign.  Behind one dash the first
letter may be an option by itself, with the rest attached. -/
def candidates (word : Text) : List (Flag × Text × Option Text) :=
  match word with
  | first :: letter :: rest =>
    if first ≠ dash then []
    else if letter = dash then
      let (start, attached) := match splitAtEquals word with
        | some (before, after) => (before, some after)
        | none => (word, none)
      (spellingTable.filter fun entry => start.isPrefixOf entry.1).map
        fun entry => (entry.2, entry.1, attached)
    else
      spellingTable.filterMap fun entry =>
        if entry.1 = [first, letter] then some (entry.2, entry.1, some rest)
        else if word.isPrefixOf entry.1 then some (entry.2, entry.1, none)
        else none
  | _ => []

def isNumeral (word : Text) : Bool := !word.isEmpty && word.all fun c => isDecimalDigit c.val

/-- What stands behind a dash reads as a number, with or without a fraction.  A final line feed does
not matter. -/
def isNumber (word : Text) : Bool :=
  let word := if word.getLast? = some (CodePoint.ofChar '\n') then word.dropLast else word
  isNumeral word ||
    match word.dropWhile fun c => isDecimalDigit c.val with
    | point :: fraction => point = CodePoint.ofChar '.' && isNumeral fraction
    | [] => false

/-- Tells a word apart.  Words without a dash in front, a dash alone, negative numbers and words with
a blank that no option begins like are files. -/
def Word.ofText (word : Text) : Except Misuse Word :=
  match word with
  | first :: second :: rest =>
    if first ≠ dash then .ok (.file word)
    else match flagSpelled? word with
      | some flag => .ok (.option flag word none)
      | none =>
        match splitAtEquals word |>.bind fun p => (flagSpelled? p.1).map fun flag => (flag, p) with
        | some (flag, spelling, attached) => .ok (.option flag spelling (some attached))
        | none =>
          match candidates word with
          | [] =>
            if isNumber (second :: rest) || word.contains (CodePoint.ofChar ' ') then .ok (.file word)
            else .ok (.unknown word)
          | [(flag, spelling, attached)] => .ok (.option flag spelling attached)
          | several => .error (.ambiguous word (several.map fun entry => entry.2.1))
  | _ => .ok (.file word)

/-- The word that ends the options. -/
def endOfOptions : Text := [dash, dash]

/-- Tells all words apart.  From `endOfOptions` on all are files. -/
def wordsOf : List Text → Except Misuse (List Word)
  | [] => .ok []
  | text :: rest =>
    if text = endOfOptions then .ok ((text :: rest).map .file)
    else match Word.ofText text with
      | .error cause => .error cause
      | .ok word => (wordsOf rest).map (word :: ·)

/-! ## Effects -/

inductive Mode where
  | describe
  | quote
  | unquote
  | minimal
  deriving DecidableEq, Repr

/-- The option that asks for a mode other than the usual one. -/
def Mode.flag? : Mode → Option Flag
  | describe => none
  | quote => some .quote
  | unquote => some .unquote
  | minimal => some .minimal

structure Options where
  legacy : Bool
  mode : Mode
  verbose : Bool
  deriving DecidableEq, Repr

def Options.usual : Options := ⟨false, .describe, false⟩

inductive Request where
  | help
  | version
  | misuse (cause : Misuse)
  | check (options : Options) (files : List Text)
  deriving DecidableEq, Repr

namespace Options

/-- Chooses a mode; only one may be chosen, though more than once. -/
def choose (options : Options) (flag : Flag) (mode : Mode) : Except Request Options :=
  match options.mode.flag? with
  | none => .ok { options with mode := mode }
  | some earlier =>
    if earlier = flag then .ok options else .error (.misuse (.conflict flag earlier))

/-- The effect of an option.  Help and version end everything. -/
def apply (options : Options) (flag : Flag) : Except Request Options :=
  match flag with
  | .help => .error .help
  | .version => .error .version
  | .legacy => .ok { options with legacy := true }
  | .verbose => .ok { options with verbose := true }
  | .quote => options.choose flag .quote
  | .unquote => options.choose flag .unquote
  | .minimal => options.choose flag .minimal

def applyAll (options : Options) (flags : List Flag) : Except Request Options :=
  flags.foldlM apply options

end Options

/-- The options joined behind one dash after a first one. -/
def joinedFlags (first : Flag) : Text → Except Misuse (List Flag)
  | [] => .ok [first]
  | letter :: rest =>
    match flagSpelled? [dash, letter] with
    | some flag => (joinedFlags flag rest).map (first :: ·)
    | none => .error (.attached first (letter :: rest))

/-- The options that a word stands for.  Only a one-letter option may have text attached, which
must be further letters. -/
def Word.flags : Word → Except Misuse (List Flag)
  | option flag _ none => .ok [flag]
  | option flag spelling (some text) =>
    if endOfOptions.isPrefixOf spelling || text.isEmpty then .error (.attached flag text)
    else joinedFlags flag text
  | _ => .ok []

def effect (options : Options) : List Word → Except Request Options
  | [] => .ok options
  | word :: rest =>
    match word.flags with
    | .error cause => .error (.misuse cause)
    | .ok flags =>
      match options.applyAll flags with
      | .error request => .error request
      | .ok next => effect next rest

def Word.fileText? : Word → Option Text
  | file text => some text
  | _ => none

/-- The text of a word that is no option. -/
def Word.looseText? : Word → Option Text
  | file text => some text
  | unknown text => some text
  | option .. => none

def Word.isFile (word : Word) : Bool := word.fileText?.isSome

/-- The first run of files in a row.  The word that ends the options is none of them. -/
def filesOf (words : List Word) : List Text :=
  (((words.dropWhile fun word => !word.isFile).takeWhile Word.isFile).filterMap
    Word.fileText?).erase endOfOptions

/-- The words that are neither options nor in the first run of files. -/
def leftover (words : List Word) : List Text :=
  (words.takeWhile fun word => !word.isFile).filterMap Word.looseText? ++
    ((words.dropWhile fun word => !word.isFile).dropWhile Word.isFile).filterMap Word.looseText?

/-- What the words of a command line ask for. -/
def Request.ofWords (args : List Text) : Request :=
  match wordsOf args with
  | .error cause => .misuse cause
  | .ok words =>
    match effect .usual words with
    | .error request => request
    | .ok options =>
      match leftover words with
      | [] => .check options (filesOf words)
      | unknown => .misuse (.unrecognized unknown)

/-! ## Texts -/

def usage : String :=
  "usage: mutf8check [-h] [--legacy] [--quote | --unquote | --minimal] [-v]\n" ++
  "                  [--version]\n" ++
  "                  [files ...]\n"

def helpText : String :=
  usage ++
  "\nValidate and render Modified UTF-8 data.\n" ++
  "\npositional arguments:\n" ++
  "  files          Files to check\n" ++
  "\noptions:\n" ++
  "  -h, --help     show this help message and exit\n" ++
  "  --legacy       Accept overlong encodings (class file version 47 and older)\n" ++
  "  --quote        Print legal input as quoted-ascii\n" ++
  "  --unquote      Convert quoted-ascii input to Modified UTF-8 on stdout\n" ++
  "  --minimal      Output only legal or illegal\n" ++
  "  -v, --verbose  Enable debug logging\n" ++
  "  --version      show program\x27s version number and exit\n"

def versionText : String := "mutf8 1.0.0\n"

end Cli

end ModifiedUtf8
