import MailMerge.Path

/-!
The names of documents: numbered after the file of their record, named after a field of it, or all
in one file. Every name ends with the extension of the template.
-/

namespace MailMerge.Batch

/-- Where documents go. -/
inductive Naming where
  /-- One file per record, beside the file of the record. -/
  | numbered
  /-- One file per record, in a directory, named after a field. -/
  | field (directory pattern : Text)
  /-- One file for all. -/
  | single (path : Text)
deriving DecidableEq, Repr

namespace Naming

/-- The naming that two options ask for, of which the single file goes first. A name pattern gives
the directory up to its last slash. -/
def ofOptions (name output : Option Text) : Naming :=
  match output, name with
  | some path, _ => .single path
  | none, some pattern =>
    .field (Text.cutAfterLast '/' pattern).1 (Text.cutAfterLast '/' pattern).2
  | none, none => .numbered

/-- The extension of a template file with its point, if it has one. -/
def extension (template : Text) : Text :=
  match (Path.ofText template).fileName?.bind Path.extensionOf? with
  | some e => '.' :: e
  | none => []

/-- The document numbered `index` of a file: its name up to the first point, the number and the
extension. -/
def numberedPath (source : Text) (index : Nat) (extension : Text) : Text :=
  let stem := ((Path.ofText source).fileName?.getD []).takeWhile (· ≠ '.')
  Path.withFileName source (stem ++ Text.ofNat index ++ extension)

/-- A field's text with its separators replaced. -/
def fileName (value : Text) : Text := value.map fun c => if c = '/' ∨ c = '\\' then '_' else c

/-- Whether a name stands for no file. -/
def isUnusable (name : Text) : Bool := name.isEmpty || name == ['.'] || name == ['.', '.']

/-- The document named after a field's text, if that names a file. -/
def fieldPath? (directory value extension : Text) : Option Text :=
  if isUnusable (fileName value) then none else some (directory ++ fileName value ++ extension)

/-- The one file for all documents. -/
def singlePath (output extension : Text) : Text := output ++ extension

end Naming
end MailMerge.Batch
