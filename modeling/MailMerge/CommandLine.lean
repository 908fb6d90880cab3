import MailMerge.Batch

/-!
The command line: the arguments, the log as it is shown, and the exit code.
-/

namespace MailMerge.CommandLine

/-! ### Arguments -/

/-- The options that take a value. -/
inductive Setting where
  | template
  | name
  | output
  | functions
deriving DecidableEq, Repr

/-- The options that take none. -/
inductive Switch where
  | skipErrors
  | verbose
  | help
  | version
deriving DecidableEq, Repr

/-- The long spelling of an option with a value. -/
def Setting.ofLong? (t : Text) : Option Setting :=
  if t = "templ".toList then some .template
  else if t = "name".toList then some .name
  else if t = "output".toList then some .output
  else if t = "functions".toList then some .functions
  else none

/-- The letter of an option with a value. -/
def Setting.ofShort? : Char → Option Setting
  | 't' => some .template
  | 'p' => some .name
  | 'o' => some .output
  | 'f' => some .functions
  | _ => none

/-- The long spelling of an option without a value. -/
def Switch.ofLong? (t : Text) : Option Switch :=
  if t = "skip-errors".toList then some .skipErrors
  else if t = "verbose".toList then some .verbose
  else if t = "help".toList then some .help
  else if t = "version".toList then some .version
  else none

/-- The letter of an option without a value. -/
def Switch.ofShort? : Char → Option Switch
  | 'v' => some .verbose
  | 'h' => some .help
  | 'V' => some .version
  | _ => none

/-- What the arguments say so far. -/
structure Arguments where
  input : Option Text
  settings : List (Setting × Text)
  switches : List Switch
deriving DecidableEq, Repr

namespace Arguments

/-- No arguments. -/
def empty : Arguments := ⟨none, [], []⟩

/-- Whether a setting names a file, which must not be the empty path. -/
def isPath : Setting → Bool
  | .name => false
  | _ => true

/-- Takes a setting, each of which may be given once. -/
def set? (a : Arguments) (s : Setting) (value : Text) : Option Arguments :=
  if (a.settings.lookup s).isSome || (isPath s && value.isEmpty) then none
  else some { a with settings := (s, value) :: a.settings }

/-- Takes a switch, each of which may be given once. -/
def switch? (a : Arguments) (s : Switch) : Option Arguments :=
  if a.switches.contains s then none else some { a with switches := s :: a.switches }

/-- Takes the input, which may be given once. -/
def input? (a : Arguments) (t : Text) : Option Arguments :=
  if a.input.isSome then none else some { a with input := some t }

/-- Whether a word can be the value of an option before it: it does not look like an option. -/
def isValue : Text → Bool
  | '-' :: _ :: _ => false
  | _ => true

end Arguments

/-- What arguments ask for. -/
inductive Request where
  | run (a : Arguments)
  | help
  | version
  /-- They cannot be understood. -/
  | misuse
deriving DecidableEq, Repr

/-- What a word does with the words after it. -/
inductive Reading where
  /-- It is done. -/
  | go (a : Arguments)
  /-- The next word is the value of an option. -/
  | needs (s : Setting) (a : Arguments)
  /-- Nothing more is read. -/
  | stop (r : Request)

/-- Takes a switch and goes on, or stops for help and version. -/
def flip (a : Arguments) (s : Switch) (next : Arguments → Reading) : Reading :=
  match s with
  | .help => .stop .help
  | .version => .stop .version
  | s =>
    match a.switch? s with
    | some a => next a
    | none => .stop .misuse

/-- Takes a setting. -/
def assign (a : Arguments) (s : Setting) (value : Text) : Reading :=
  match a.set? s value with
  | some a => .go a
  | none => .stop .misuse

/-- Reads a long option, after its two dashes. -/
def long (a : Arguments) (t : Text) : Reading :=
  match Text.cutAt? '=' t with
  | some (name, value) =>
    match Setting.ofLong? name with
    | some s => assign a s value
    | none => .stop .misuse
  | none =>
    match Setting.ofLong? t, Switch.ofLong? t with
    | some s, _ => .needs s a
    | none, some s => flip a s .go
    | none, none => .stop .misuse

/-- Reads letters of options, after one dash. The value of an option may follow its letter. -/
def short (a : Arguments) : Text → Reading
  | [] => .go a
  | c :: r =>
    match Setting.ofShort? c with
    | some s =>
      match r with
      | [] => .needs s a
      | '=' :: value => assign a s value
      | value => assign a s value
    | none =>
      match Switch.ofShort? c with
      | some s => flip a s fun a => short a r
      | none => .stop .misuse

/-- Reads a word that may be an option. -/
def word (a : Arguments) : Text → Reading
  | '-' :: '-' :: t => long a t
  | '-' :: c :: t => short a (c :: t)
  | t =>
    match a.input? t with
    | some a => .go a
    | none => .stop .misuse

/-- Reads words after a lone pair of dashes, none of which is an option. -/
def plainWords (a : Arguments) : List Text → Request
  | [] => .run a
  | w :: ws =>
    match a.input? w with
    | some a => plainWords a ws
    | none => .misuse

/-- Reads words; `pending` is an option that waits for its value. -/
def words : Option Setting → Arguments → List Text → Request
  | none, a, [] => .run a
  | some _, _, [] => .misuse
  | some s, a, w :: ws =>
    if Arguments.isValue w then
      match a.set? s w with
      | some a => words none a ws
      | none => .misuse
    else .misuse
  | none, a, w :: ws =>
    if w = ['-', '-'] then plainWords a ws
    else
      match word a w with
      | .go a => words none a ws
      | .needs s a => words (some s) a ws
      | .stop r => r

/-- The job that complete arguments describe: an input and a template are needed, and documents are
named in one way only. -/
def Arguments.job? (a : Arguments) : Option Batch.Job := do
  let input ← a.input
  let template ← a.settings.lookup .template
  let name := a.settings.lookup .name
  let output := a.settings.lookup .output
  if name.isSome && output.isSome then none
  else some {
    input, template, name, output
    functions := a.settings.lookup .functions
    skipErrors := a.switches.contains .skipErrors }

/-! ### Output -/

/-- The name of a level in the log. -/
def levelName : Level → Text
  | .debug => "DEBUG".toList
  | .info => "INFO".toList
  | .warn => "WARN".toList

/-- A line of the log as it is shown. Lines after the first one are indented. -/
def showNote (n : Note) : Text :=
  '[' :: (levelName n.level ++ ']' :: ' ' ::
    n.message.flatMap fun c => if c = '\n' then "\n    ".toList else [c])

/-- Whether a note is shown. Without the switch for it, only warnings are. -/
def isShown (verbose : Bool) (n : Note) : Bool := verbose || n.level = .warn

/-- The last line of the log. -/
def summary (r : Batch.Report) : Note :=
  ⟨.info, Text.ofNat r.rendered ++ " document(s) rendered, ".toList ++ Text.ofNat r.skipped
    ++ " skipped, ".toList ++ Text.ofNat r.written.length ++ " file(s) written".toList⟩

/-- The name and the version of a program. -/
structure Program where
  name : Text
  version : Text

/-- How the program is used. -/
def usage (p : Program) : Text :=
  "Usage: ".toList ++ p.name ++ " [OPTIONS] --templ <TEMPLATE> <INPUT>".toList

/-- What a program does besides working with files. -/
structure Console (m : Type → Type) where
  /-- Writes a line to the output. -/
  say : Text → m Unit
  /-- Writes a line to the error output. -/
  complain : Text → m Unit

variable {m : Type → Type} [Monad m]

/-- Does the job of complete arguments; the result is the exit code. -/
def perform (fs : FileSystem m) (console : Console m) (verbose : Bool) (job : Batch.Job) :
    m UInt32 := do
  let log (n : Note) : m Unit :=
    if isShown verbose n then console.complain (showNote n) else pure ()
  match ← (Batch.run { fs with log } job).run with
  | .ok report => do
    log (summary report)
    pure 0
  | .error e => do
    console.complain e.message
    pure 1

/-- Runs the program with the given arguments; the result is the exit code. -/
def run (program : Program) (fs : FileSystem m) (console : Console m) (args : List Text) :
    m UInt32 := do
  match words none .empty args with
  | .help => do
    console.say (usage program)
    pure 0
  | .version => do
    console.say (program.name ++ ' ' :: program.version)
    pure 0
  | .misuse => do
    console.complain (usage program)
    pure 2
  | .run a =>
    match a.job? with
    | some job => perform fs console (a.switches.contains .verbose) job
    | none => do
      console.complain (usage program)
      pure 2

end MailMerge.CommandLine
