import MailMerge.Path
import MailMerge.Text.Utf8

/-!
Files and directories below one directory, and what reading, writing and listing them gives.
-/

namespace MailMerge

/-- Why a file operation fails. -/
inductive FileError where
  | notFound
  | notDirectory
  | isDirectory
  | nameTooLong
  | nulInName
  | notUtf8
  /-- Any other reason, in the words of the system. -/
  | other (message : Text)
deriving DecidableEq, Repr

/-- The wording of a failure. -/
def FileError.message : FileError → Text
  | .notFound => "No such file or directory (os error 2)".toList
  | .notDirectory => "Not a directory (os error 20)".toList
  | .isDirectory => "Is a directory (os error 21)".toList
  | .nameTooLong => "File name too long (os error 36)".toList
  | .nulInName => "file name contained an unexpected NUL byte".toList
  | .notUtf8 => "stream did not contain valid UTF-8".toList
  | .other m => m

/-- What stands at a place. -/
inductive Files.Entry where
  | file (contents : Bytes)
  | directory
deriving DecidableEq, Repr

/-- All files and directories, by the names that lead to them. -/
structure Files where
  entries : List (List Text × Files.Entry)
deriving DecidableEq, Repr

namespace Files

/-- An empty directory. -/
def empty : Files := ⟨[]⟩

/-- What stands at a place; the empty place is the directory itself. -/
def at? (fs : Files) (place : List Text) : Option Entry :=
  if place.isEmpty then some .directory else fs.entries.lookup place

/-- Puts an entry at a place. -/
def set (fs : Files) (place : List Text) (e : Entry) : Files :=
  ⟨fs.entries.filter (·.1 ≠ place) ++ [(place, e)]⟩

/-- Adds the directories on the way to a place. -/
def addParents (fs : Files) : List Text → List Text → Files
  | _, [] => fs
  | _, [_] => fs
  | done, n :: r =>
    let here := done ++ [n]
    ((if (fs.at? here).isSome then fs else fs.set here .directory)).addParents here r

/-- Adds a file with all directories on the way to it. -/
def addFile (fs : Files) (path : Text) (contents : Bytes) : Files :=
  let place := (path.pieces '/').filter (!Path.isVoid ·)
  (fs.addParents [] place).set place (.file contents)

/-- Adds a directory with all directories on the way to it. -/
def addDirectory (fs : Files) (path : Text) : Files :=
  let place := (path.pieces '/').filter (!Path.isVoid ·)
  if place.isEmpty then fs else (fs.addParents [] place).set place .directory

/-- The longest name of a file, in bytes. -/
def nameLimit : Nat := 255

/-- Walks along names from a place. The last name need not exist; everything before must be a
directory. An empty name or a point stays, two points go up. -/
def walk (fs : Files) (place : List Text) : List Text → Except FileError (List Text)
  | [] => .ok place
  | n :: r =>
    match fs.at? place with
    | none => .error .notFound
    | some (.file _) => .error .notDirectory
    | some .directory =>
      if Path.isVoid n then fs.walk place r
      else if n = ['.', '.'] then fs.walk place.dropLast r
      else if nameLimit < Utf8.size n then .error .nameTooLong
      else fs.walk (place ++ [n]) r

/-- The place that a path leads to. -/
def locate (fs : Files) (path : Text) : Except FileError (List Text) :=
  if path.isEmpty then .error .notFound
  else if path.contains '\x00' then .error .nulInName
  else fs.walk [] (path.pieces '/')

/-- What stands where a path leads. -/
def entry (fs : Files) (path : Text) : Except FileError Entry := do
  match fs.at? (← fs.locate path) with
  | some e => .ok e
  | none => .error .notFound

/-- Whether a path leads to a file. -/
def isFile (fs : Files) (path : Text) : Bool :=
  match fs.entry path with
  | .ok (.file _) => true
  | _ => false

/-- The contents of a file. -/
def read (fs : Files) (path : Text) : Except FileError Bytes := do
  match ← fs.entry path with
  | .file contents => .ok contents
  | .directory => .error .isDirectory

/-- Writes a file anew. A path with a slash at its end never leads to a file. -/
def write (fs : Files) (path : Text) (contents : Bytes) : Except FileError Files := do
  let trailing : Bool := path.getLast? = some '/'
  let place ← fs.locate (path.reverse.dropWhile (· = '/')).reverse
  match fs.at? place with
  | some .directory => .error .isDirectory
  | some (.file _) => if trailing then .error .notDirectory else .ok (fs.set place (.file contents))
  | none => if trailing then .error .isDirectory else .ok (fs.set place (.file contents))

/-- The names of the files directly inside a place. -/
def filesIn (fs : Files) (place : List Text) : List Text :=
  fs.entries.filterMap fun (p, e) =>
    match e, p.getLast? with
    | .file _, some name => if p.dropLast = place then some name else none
    | _, _ => none

/-- The names of the files directly inside a directory, sorted; a file has none inside. -/
def list (fs : Files) (path : Text) : Except FileError (List Text) := do
  let place ← fs.locate path
  match fs.at? place with
  | none => .error .notFound
  | some (.file _) => .ok []
  | some .directory => .ok ((fs.filesIn place).mergeSort fun a b => Text.compare a b != .gt)

end Files
end MailMerge
