import MailMerge.Files
import MailMerge.Glob
import MailMerge.Record
import MailMerge.TemplateError

/-!
The inputs of a batch: an expression names files, by a path, a directory or a pattern of names, and
optionally what to select in them. An array gives one record per element, anything else one record.
-/

namespace MailMerge

/-- How serious a note is. -/
inductive Level where
  | debug
  | info
  | warn
deriving DecidableEq, Repr

/-- A line of the log. -/
structure Note where
  level : Level
  message : Text
deriving DecidableEq, Repr

/-- What a batch does with files, in a monad of its own. -/
structure FileSystem (m : Type → Type) where
  /-- The contents of a file. -/
  read : Text → m (Except FileError Bytes)
  /-- Writes a file anew. -/
  write : Text → Bytes → m (Except FileError Unit)
  /-- Whether a path leads to a file. -/
  isFile : Text → m Bool
  /-- The names of the files directly inside a directory, sorted. -/
  list : Text → m (Except FileError (List Text))
  /-- Takes a line of the log down. -/
  log : Note → m Unit

namespace Batch

/-- Why one record gives no document. -/
inductive RecordError where
  | render (e : RenderError)
  /-- The text of the naming field names no file. -/
  | unusableName (value : Text)
deriving DecidableEq, Repr

/-- The wording of an error. -/
def RecordError.message : RecordError → Text
  | .render e => e.message
  | .unusableName v => "'".toList ++ v ++ "' cannot be used as a file name".toList

/-- Why a batch stops. -/
inductive Error where
  | cannotRead (path : Text) (e : FileError)
  | cannotList (directory : Text) (e : FileError)
  | cannotWrite (path : Text) (e : FileError)
  /-- A path that leads to no file. -/
  | noSuchFile (path : Text)
  /-- A file that holds no document, with the details. -/
  | invalidJson (path details : Text)
  /-- A selection that leads to nothing. -/
  | notSelected (pattern path : Text)
  | template (e : TemplateError)
  | functions (e : RenderError)
  | record (index : Nat) (path : Text) (e : RecordError)
deriving DecidableEq, Repr

/-- The wording of an error. -/
def Error.message : Error → Text
  | .cannotRead p e => "Cannot read '".toList ++ p ++ "': ".toList ++ e.message
  | .cannotList d e => "Cannot read '".toList ++ d ++ "': IO error for operation on ".toList ++ d
      ++ ": ".toList ++ e.message
  | .cannotWrite p e => "Cannot write '".toList ++ p ++ "': ".toList ++ e.message
  | .noSuchFile p => "File '".toList ++ p ++ "' does not exist or is a directory".toList
  | .invalidJson p d => "'".toList ++ p ++ "' is not valid JSON: ".toList ++ d
  | .notSelected q p => "'".toList ++ q ++ "' does not exist in '".toList ++ p ++ "'".toList
  | .template e => e.message
  | .functions e => e.message
  | .record i p e => "Record ".toList ++ Text.ofNat i ++ " of ".toList ++ p ++ ": ".toList
      ++ e.message

/-- An input file and its records, as they are written without blanks. -/
structure Source where
  path : Text
  records : List Text
deriving DecidableEq, Repr

namespace Source

/-- Splits an input expression into a path and what to select: everything from the first arrow or
opening bracket on. -/
def splitInput : Text → Text × Text
  | [] => ([], [])
  | c :: r =>
    if c = '[' ∨ ['-', '>'].isPrefixOf (c :: r) then ([], c :: r)
    else
      let (path, pattern) := splitInput r
      (c :: path, pattern)

/-- The records that a document gives. -/
def recordsOf : Json → List Text
  | .array items => items.map Json.write
  | d => [d.write]

/-- The records that `pattern` selects in a document. -/
def select (document : Json) (pattern path : Text) : Except Error (List Text) :=
  match Record.resolve document pattern with
  | some d => .ok (recordsOf d)
  | none => .error (.notSelected pattern path)

variable {m : Type → Type} [Monad m] (fs : FileSystem m)

/-- The text of a file. -/
def readText (path : Text) : ExceptT Error m Text := do
  match ← fs.read path with
  | .error e => throw (.cannotRead path e)
  | .ok contents =>
    match Utf8.decode? contents with
    | some t => pure t
    | none => throw (.cannotRead path .notUtf8)

/-- The files directly inside a directory whose names pass a test. -/
def filesIn (directory : Text) (keep : Text → Bool) : ExceptT Error m (List Text) := do
  match ← fs.list directory with
  | .error e => throw (.cannotList directory e)
  | .ok names => pure ((names.filter keep).map (Path.below directory))

/-- The files that a path names: all in a directory if it ends with a slash, those whose names have
the form of its last name if that is a pattern, and otherwise a single one. -/
def findFiles (path : Text) : ExceptT Error m (List Text) := do
  if path.getLast? = some '/' then filesIn fs path fun _ => true
  else
    let name := ((Path.ofText path).fileName?).getD []
    if Glob.isPattern name then
      let directory := (Path.ofText path).parent.toText
      filesIn fs (if directory.isEmpty then ['.'] else directory) (Glob.accepts name)
    else if ← fs.isFile path then pure [path]
    else throw (.noSuchFile path)

/-- The records that `pattern` selects in a file. -/
def load (path pattern : Text) : ExceptT Error m (List Text) := do
  let contents := Utf8.encode (← readText fs path)
  match Json.read contents with
  | .error f => throw (.invalidJson path (f.message contents))
  | .ok document =>
    let records ← (ExceptT.mk (pure (select document pattern path)) : ExceptT Error m (List Text))
    fs.log ⟨.debug, Text.ofNat records.length ++ " record(s) in ".toList ++ path⟩
    pure records

/-- The sources that files give. -/
def loadAll (pattern : Text) : List Text → ExceptT Error m (List Source)
  | [] => pure []
  | path :: paths => do
    let records ← load fs path pattern
    let rest ← loadAll pattern paths
    pure (⟨path, records⟩ :: rest)

/-- The sources that an input expression names, in the order of the files. -/
def discover (input : Text) : ExceptT Error m (List Source) := do
  let (path, pattern) := splitInput input
  loadAll fs pattern (← findFiles fs path)

end Source
end Batch
end MailMerge
