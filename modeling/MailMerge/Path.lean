import MailMerge.Text

/-!
Names of files. A path is a lead, which is `/`, `.` or nothing, and names with slashes between them;
empty names and single points at its end do not count.
-/

namespace MailMerge

/-- A path taken apart. -/
structure Path where
  /-- `/` for a path from the root, `.` for one that names the current directory first. -/
  lead : Text
  /-- What stands between the slashes after the lead. -/
  names : List Text
deriving DecidableEq, Repr

namespace Path

/-- Whether something between slashes is no name. -/
def isVoid (name : Text) : Bool := name.isEmpty || name == ['.']

/-- Leaves out what does not count at the end. -/
def trimNames (names : List Text) : List Text := (names.reverse.dropWhile isVoid).reverse

/-- Takes a path apart. -/
def ofText : Text → Path
  | '/' :: r => ⟨['/'], trimNames (Text.pieces '/' r)⟩
  | ['.'] => ⟨['.'], []⟩
  | '.' :: '/' :: r => ⟨['.'], trimNames (Text.pieces '/' ('/' :: r))⟩
  | t => ⟨[], trimNames (Text.pieces '/' t)⟩

/-- Puts a path together. -/
def toText (p : Path) : Text := p.lead ++ Text.join ['/'] p.names

/-- The last name of a path, unless it goes up. -/
def fileName? (p : Path) : Option Text := p.names.getLast?.filter (· ≠ ['.', '.'])

/-- The path without its last name. -/
def parent (p : Path) : Path := ⟨p.lead, trimNames p.names.dropLast⟩

/-- A name below a directory. -/
def below (directory name : Text) : Text :=
  match directory.getLast? with
  | none => name
  | some c => if c = '/' then directory ++ name else directory ++ '/' :: name

/-- The path with another last name, or with one more if it has none. -/
def withFileName (path name : Text) : Text :=
  if (ofText path).fileName?.isSome then below (ofText path).parent.toText name
  else below path name

/-- The part of a file name after its last point, unless the point begins the name. -/
def extensionOf? (name : Text) : Option Text :=
  match name.reverse.dropWhile (· ≠ '.') with
  | [] => none
  | [_] => none
  | _ :: _ :: _ => some (name.reverse.takeWhile (· ≠ '.')).reverse

end Path
end MailMerge
