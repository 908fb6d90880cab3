import MailMerge.Text

/-!
Macros. A line that starts with three markers and a space defines a name; from the next line on, the
name between two markers stands for the rest of the definition. Definition lines vanish.
-/

namespace MailMerge.Macros

/-- What a definition line starts with. -/
def lead : Text := ['$', '$', '$', ' ']

/-- The names between markers, in the order of their first definitions, with their values. -/
abbrev Table := List (Text × Text)

/-- Defines a name: a known one keeps its place. -/
def define (use value : Text) : Table → Table
  | [] => [(use, value)]
  | (u, v) :: r => if u = use then (u, value) :: r else (u, v) :: define use value r

/-- A name as it is used. -/
def useOf (name : Text) : Text := '$' :: (name ++ ['$'])

/-- A line without its line break. -/
def content (line : Text) : Text :=
  (line.reverse.dropWhile fun c => c == '\r' || c == '\n').reverse

/-- What follows the lead of a definition line. -/
def definition? (line : Text) : Option Text := Text.after? lead (content line)

/-- Takes a definition into the table. One without a value is none. -/
def learn (table : Table) (definition : Text) : Table :=
  match Text.cutAt? ' ' definition with
  | some (name, value) => define (useOf name) value table
  | none => table

/-- A line with all names replaced, one after the other. -/
def apply (table : Table) (line : Text) : Text :=
  table.foldl (fun l m => Text.replaceAll m.1 m.2 l) line

/-- Expands lines in order. -/
def expandLines : Table → List Text → Text
  | _, [] => []
  | table, l :: ls =>
    match definition? l with
    | some d => expandLines (learn table d) ls
    | none => apply table l ++ expandLines table ls

/-- A template with its macros expanded. -/
def expand (source : Text) : Text := expandLines [] source.lines

end MailMerge.Macros
