import MailMerge.CommandLine

/-!
The program: the command line on the files of the system.
-/

namespace MailMerge

/-- The reason of a failed file operation. -/
def fileError (e : IO.Error) : FileError :=
  match e with
  | .noFileOrDirectory .. => .notFound
  | .inappropriateType .. => .notDirectory
  | e => .other e.toString.toList

/-- The result of a file operation, failures included. -/
def tryFile {α : Type} (x : IO α) : IO (Except FileError α) := do
  try return .ok (← x)
  catch e => return .error (fileError e)

/-- The names of the files directly inside a directory, sorted. -/
def listFiles (directory : Text) : IO (List Text) := do
  let here := (← IO.currentDir) / String.ofList directory
  if ← here.isDir then
    let mut names := []
    for entry in ← here.readDir do
      if (← (here / entry.fileName).metadata).type matches .file then
        names := entry.fileName.toList :: names
    return names.mergeSort fun a b => Text.compare a b != .gt
  else
    let _ ← here.metadata
    return []

/-- The files of the system. -/
def systemFiles : FileSystem IO where
  read path := tryFile do return (← IO.FS.readBinFile (String.ofList path)).toList
  write path contents :=
    tryFile (IO.FS.writeBinFile (String.ofList path) (ByteArray.mk contents.toArray))
  isFile path := do
    let file := (← IO.currentDir) / String.ofList path
    return (← file.pathExists) && !(← file.isDir)
  list directory := tryFile (listFiles directory)
  log _ := pure ()

/-- The output and the error output. -/
def systemConsole : CommandLine.Console IO where
  say t := IO.println (String.ofList t)
  complain t := IO.eprintln (String.ofList t)

end MailMerge

/-- Renders documents as the arguments ask for. -/
def main (args : List String) : IO UInt32 :=
  MailMerge.CommandLine.run ⟨"mailmerge".toList, "0.1.0".toList⟩ MailMerge.systemFiles
    MailMerge.systemConsole (args.map String.toList)
