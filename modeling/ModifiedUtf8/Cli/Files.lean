import ModifiedUtf8.Fault

/-!
# Files

A path is read as its parts, of which empty ones and single dots do not count.  Not every path can be
asked for: the system knows names as bytes, and a surrogate stands for one only in `DC80` to `DCFF`.

`FileTree` is a directory of files held in memory, in which paths are followed part by part: a parent
step needs the directory that it leaves, and nothing is known of what lies outside the tree.
-/

namespace ModifiedUtf8

namespace Cli

/-! ## Paths -/

/-- A path: nothing or slashes in front, and the parts. -/
structure Path where
  root : Text
  parts : List Text
  deriving DecidableEq, Repr

def slash : CodePoint := CodePoint.ofChar '/'

def dot : CodePoint := CodePoint.ofChar '.'

/-- What stands before, between and behind the slashes of a text. -/
def betweenSlashes : Text → List Text
  | [] => [[]]
  | c :: rest =>
    match betweenSlashes rest with
    | [] => [[c]]
    | part :: parts => if c = slash then [] :: part :: parts else (c :: part) :: parts

/-- The bytes that the system has for a character of a name. -/
def nameBytes? (c : CodePoint) : Option Bytes :=
  if 0xDC80 ≤ c.val ∧ c.val ≤ 0xDCFF then some [UInt8.ofNat c.val]
  else if c.isSurrogate then none
  else some (String.utf8EncodeChar (Char.ofNat c.val))

def nameBytes (part : Text) : Bytes := part.flatMap fun c => (nameBytes? c).getD []

namespace Path

/-- Reads a path.  Two slashes in front are kept, three or more are one. -/
def ofText (text : Text) : Path :=
  let slashes := (text.takeWhile (· = slash)).length
  let root := if slashes = 0 then [] else if slashes = 2 then [slash, slash] else [slash]
  ⟨root, (betweenSlashes text).filter fun part => part ≠ [] && part ≠ [dot]⟩

/-- A path as it is shown; the empty one is a dot. -/
def toText (path : Path) : Text :=
  if path.root = [] ∧ path.parts = [] then [dot]
  else path.root ++ List.intercalate [slash] path.parts

/-- The bytes by which the system is asked for a path. -/
def bytes? (path : Path) : Except Fault Bytes :=
  match path.toText.encodeWith nameBytes? .notScalar with
  | .error fault => .error fault
  | .ok data => if data.contains 0 then .error .nulInPath else .ok data

end Path

/-! ## Failures -/

/-- A number and a text by which the system says why a file cannot be read. -/
structure SystemError where
  code : Nat
  text : String
  deriving DecidableEq, Repr

namespace SystemError

def noSuchFile : SystemError := ⟨2, "No such file or directory"⟩

def notADirectory : SystemError := ⟨20, "Not a directory"⟩

def isADirectory : SystemError := ⟨21, "Is a directory"⟩

def message (error : SystemError) (path : Path) : Text :=
  .ofString
    ("[Errno " ++ toString error.code ++ "] " ++ error.text ++ ": " ++ Literal.ofText path.toText)

end SystemError

/-- Why a file was not read: the system refused it, or it could not be asked. -/
inductive ReadFailure where
  | system (error : SystemError)
  | unaskable (fault : Fault)
  deriving DecidableEq, Repr

/-! ## Trees -/

/-- The files of a directory and of those below it, by the parts of their paths. -/
structure FileTree where
  files : List (List Bytes × Bytes)

/-- A place that a path leads to: a directory of the tree, or outside of it. -/
inductive Place where
  | inside (parts : List Bytes)
  | outside

namespace FileTree

def ofNames (files : List (Text × Bytes)) : FileTree :=
  ⟨files.map fun file => ((Path.ofText file.1).parts.map nameBytes, file.2)⟩

def hasDirectory (tree : FileTree) (parts : List Bytes) : Bool :=
  tree.files.any fun file => parts.isPrefixOf file.1 && parts.length < file.1.length

/-- The part that stands for the parent of a directory. -/
def parent : Bytes := [0x2E, 0x2E]

/-- Follows the parts of a path from a place on and reads the file. -/
def readFrom (tree : FileTree) : Place → List Bytes → Except SystemError Bytes
  | _, [] => .error .isADirectory
  | .outside, part :: rest =>
    if part = parent then tree.readFrom .outside rest else .error .noSuchFile
  | .inside dir, part :: rest =>
    if part = parent then
      tree.readFrom (if dir.isEmpty then .outside else .inside dir.dropLast) rest
    else
      let here := dir ++ [part]
      match tree.files.lookup here with
      | some data => if rest.isEmpty then .ok data else .error .notADirectory
      | none =>
        if tree.hasDirectory here then tree.readFrom (.inside here) rest else .error .noSuchFile

def read (tree : FileTree) (path : Path) : Except ReadFailure Bytes :=
  match path.bytes? with
  | .error fault => .error (.unaskable fault)
  | .ok _ =>
    let start := if path.root = [] then .inside [] else .outside
    match tree.readFrom start (path.parts.map nameBytes) with
    | .error error => .error (.system error)
    | .ok data => .ok data

end FileTree

end Cli

end ModifiedUtf8
