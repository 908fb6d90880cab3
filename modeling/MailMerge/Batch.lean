import MailMerge.Batch.Naming
import MailMerge.Batch.Source
import MailMerge.Function.Reader
import MailMerge.Macros

/-!
Batches: a template rendered against every record of every input file, and the documents written as
their naming says. A record that fails either stops the batch or is noted and left out. What a
functions file means is left to a loader: nothing here depends on it.
-/

namespace MailMerge.Batch

/-- What a batch is asked to do. -/
structure Job where
  input : Text
  template : Text
  name : Option Text
  output : Option Text
  functions : Option Text
  skipErrors : Bool
deriving DecidableEq, Repr

/-- What a batch did. -/
structure Report where
  /-- The files written, in order. -/
  written : List Text
  /-- How many records failed and were left out. -/
  skipped : Nat
  /-- How many records were rendered. -/
  rendered : Nat
deriving DecidableEq, Repr

/-- A batch under way: what it did so far, the documents for the single file, and the state of the
user functions. -/
structure Progress (σ : Type) where
  report : Report
  combined : Text
  state : σ

/-- What stays the same during a batch. -/
structure Plan (σ : Type) where
  template : Template
  functions : Option (Script σ)
  naming : Naming
  extension : Text
  skipErrors : Bool

variable {σ : Type}

/-- Before the first record. -/
def Progress.start (state : σ) : Progress σ := ⟨⟨[], 0, 0⟩, [], state⟩

namespace Plan

/-- Where the document of a record goes; nowhere of its own if all go into one file. -/
def target (p : Plan σ) (source : Text) (index : Nat) (record : Text) :
    Except RecordError (Option Text) :=
  match p.naming with
  | .numbered => .ok (some (Naming.numberedPath source index p.extension))
  | .single _ => .ok none
  | .field directory pattern =>
    match Record.get (Utf8.encode record) pattern with
    | .error e => .error (.render e)
    | .ok (value, _) =>
      match Naming.fieldPath? directory value p.extension with
      | some path => .ok (some path)
      | none => .error (.unusableName value)

/-- Renders a record. -/
def render (p : Plan σ) (record : Text) : Eval σ Text :=
  p.template.render (Context.ofRecord (Utf8.encode record) (p.functions.map Script.host))

/-- The document of a record and where it goes. -/
def document (p : Plan σ) (source : Text) (index : Nat) (record : Text)
    (rendered : Except RenderError Text) : Except RecordError (Text × Option Text) :=
  match rendered with
  | .error e => .error (.render e)
  | .ok text => (p.target source index record).map fun target => (text, target)

end Plan

variable {m : Type → Type} [Monad m] (fs : FileSystem m)

/-- Notes every line at the given level. -/
def logAll (level : Level) : List Text → ExceptT Error m Unit
  | [] => pure ()
  | l :: ls => do
    fs.log ⟨level, l⟩
    logAll level ls

/-- Writes a document. -/
def write (path text : Text) : ExceptT Error m Unit := do
  match ← fs.write path (Utf8.encode text) with
  | .error e => throw (.cannotWrite path e)
  | .ok () => fs.log ⟨.info, "Wrote ".toList ++ path⟩

/-- Renders one record and deals with its document. -/
def takeRecord (p : Plan σ) (source : Text) (index : Nat) (record : Text) (g : Progress σ) :
    ExceptT Error m (Progress σ) := do
  let o := p.render record g.state
  logAll fs .debug (Event.log o.events)
  let g := { g with state := o.state }
  match p.document source index record o.result with
  | .ok (text, some path) => do
    write fs path text
    pure { g with report :=
      { g.report with written := g.report.written ++ [path], rendered := g.report.rendered + 1 } }
  | .ok (text, none) =>
    pure { g with
      combined := g.combined ++ text
      report := { g.report with rendered := g.report.rendered + 1 } }
  | .error e =>
    if p.skipErrors then do
      fs.log ⟨.warn, "Skipping record ".toList ++ Text.ofNat index ++ " of ".toList ++ source
        ++ ": ".toList ++ e.message⟩
      pure { g with report := { g.report with skipped := g.report.skipped + 1 } }
    else throw (.record index source e)

/-- Takes records from number `index` on. -/
def takeRecords (p : Plan σ) (source : Text) :
    Nat → List Text → Progress σ → ExceptT Error m (Progress σ)
  | _, [], g => pure g
  | index, r :: rs, g => do
    let g ← takeRecord fs p source index r g
    takeRecords p source (index + 1) rs g

/-- Takes all records of all sources. -/
def takeSources (p : Plan σ) : List Source → Progress σ → ExceptT Error m (Progress σ)
  | [], g => pure g
  | s :: ss, g => do
    let g ← takeRecords fs p s.path 0 s.records g
    takeSources p ss g

/-- Writes the single file, if there is to be one. -/
def finish (p : Plan σ) (g : Progress σ) : ExceptT Error m Report :=
  match p.naming with
  | .single output => do
    let path := Naming.singlePath output p.extension
    write fs path g.combined
    pure { g.report with written := g.report.written ++ [path] }
  | _ => pure g.report

/-- Reads a template file, with its macros expanded. -/
def loadTemplate (path : Text) : ExceptT Error m Template := do
  let source := Macros.expand (← Source.readText fs path)
  logAll fs .debug ((Template.examined source).map ("BLOCK: ".toList ++ ·))
  match Template.parse source with
  | .ok t => pure t
  | .error e => throw (.template e)

/-- Loads a functions file. -/
def loadFunctions (loader : Loader σ) (path : Text) : ExceptT Error m (Script σ) := do
  match loader.load (← Source.readText fs path) with
  | .ok f => pure f
  | .error e => throw (.functions e)

/-- The functions that a job asks for. -/
def jobFunctions (loader : Loader σ) : Option Text → ExceptT Error m (Option (Script σ))
  | none => pure none
  | some path => do return some (← loadFunctions fs loader path)

/-- Does a whole job with the given loader. All inputs are read before the first record is
rendered. -/
def runWith (loader : Loader σ) (job : Job) : ExceptT Error m Report := do
  let template ← loadTemplate fs job.template
  let functions ← jobFunctions fs loader job.functions
  let plan : Plan σ := {
    template, functions
    naming := Naming.ofOptions job.name job.output
    extension := Naming.extension job.template
    skipErrors := job.skipErrors }
  let sources ← Source.discover fs job.input
  let g ← takeSources fs plan sources (.start (loader.start functions))
  finish fs plan g

/-- Does a whole job. -/
def run (job : Job) : ExceptT Error m Report := runWith fs Functions.loader job

/-! ### Batches on files in memory -/

/-- Files, and the log so far. -/
structure Disk where
  files : Files
  log : List Note

/-- Files in memory. -/
def Disk.system : FileSystem (StateM Disk) where
  read path := do return (← get).files.read path
  write path contents := do
    match (← get).files.write path contents with
    | .error e => pure (.error e)
    | .ok files =>
      modify fun d => { d with files }
      pure (.ok ())
  isFile path := do return (← get).files.isFile path
  list path := do return (← get).files.list path
  log n := modify fun d => { d with log := d.log ++ [n] }

end MailMerge.Batch
