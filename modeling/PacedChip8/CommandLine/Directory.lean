/-
Files, as far as the program looks at them: opening a path either is refused or gives a reading. A
`Directory` answers for a working directory with known files; a path is followed from it component
by component, and a directory can be opened but not read. What lies outside the working directory
counts as empty.
-/
import PacedChip8.Machine.Load

namespace PacedChip8.CommandLine

/-- A refusal by the operating system: its number and what it says. -/
structure SystemError where
  code : Nat
  text : String
  deriving DecidableEq

namespace SystemError

/-- What it says, and its number. -/
def message (e : SystemError) : String :=
  e.text ++ " (os error " ++ Numeral.decimal e.code ++ ")"

/-- Nothing has this name. -/
def missing : SystemError := ⟨2, "No such file or directory"⟩

/-- A path goes on after the name of a file. -/
def notDirectory : SystemError := ⟨20, "Not a directory"⟩

/-- A directory was read as if it were a file. -/
def isDirectory : SystemError := ⟨21, "Is a directory"⟩

/-- A name is longer than names can be. -/
def nameTooLong : SystemError := ⟨36, "File name too long"⟩

end SystemError

/-- What opening a path gives. -/
inductive Opening where
  | refused (e : SystemError)
  | opened (reading : Reading)
  deriving DecidableEq

/-- The files of a working directory, by path. -/
structure Directory where
  files : List (String × List UInt8)
  deriving DecidableEq

namespace Directory

/-- Where a path has led so far. -/
inductive Place where
  /-- Below the working directory, by the names from it. -/
  | inside (names : List String)
  /-- Somewhere else. -/
  | outside
  deriving DecidableEq

/-- The components of a path, of which the first is `name` in front of the characters up to a slash. -/
def componentsFrom (name : List Char) : List Char → List String
  | [] => [String.ofList name]
  | c :: rest =>
    if c = '/' then String.ofList name :: componentsFrom [] rest else componentsFrom (name ++ [c]) rest

/-- What the slashes of a path separate. -/
def components (path : String) : List String := componentsFrom [] path.toList

/-- The bytes of the file at a place. -/
def file? (d : Directory) (names : List String) : Option (List UInt8) :=
  (d.files.find? fun entry => components entry.1 = names).map Prod.snd

/-- Whether a place is a file or holds one further down. -/
def occupied (d : Directory) (names : List String) : Bool :=
  d.files.any fun entry => names.isPrefixOf (components entry.1)

/-- Whether a path cannot go on from a place because a file is there. -/
def isFile (d : Directory) : Place → Bool
  | .inside names => (d.file? names).isSome
  | .outside => false

/-- The place that a proper name leads to, if something is there. -/
def enter? (d : Directory) (name : String) : Place → Option Place
  | .inside names => if d.occupied (names ++ [name]) then some (.inside (names ++ [name])) else none
  | .outside => none

/-- The place above. -/
def above : Place → Place
  | .inside (name :: names) => .inside (name :: names).dropLast
  | _ => .outside

/-- Follows the components of a path; an empty one stays where it is, as `.` does, and `..` goes
up. -/
def follow (d : Directory) (place : Place) : List String → Except SystemError Place
  | [] => .ok place
  | name :: rest =>
    if d.isFile place then .error .notDirectory
    else if name = "" ∨ name = "." then d.follow place rest
    else if name = ".." then d.follow (above place) rest
    else if 255 < name.utf8ByteSize then .error .nameTooLong
    else
      match d.enter? name place with
      | some next => d.follow next rest
      | none => .error .missing

/-- Where a path starts: at the working directory, unless it begins with a slash. -/
def startOf (path : String) : Place :=
  if path.toList.head? = some '/' then .outside else .inside []

/-- Opens a path. -/
def openPath (d : Directory) (path : String) : Opening :=
  if 4096 ≤ path.utf8ByteSize then .refused .nameTooLong
  else
    match d.follow (startOf path) (components path) with
    | .error e => .refused e
    | .ok .outside => .opened (.failed [] SystemError.isDirectory.message)
    | .ok (.inside names) =>
      match d.file? names with
      | some bytes => .opened (.complete bytes)
      | none => .opened (.failed [] SystemError.isDirectory.message)

end Directory
end PacedChip8.CommandLine
