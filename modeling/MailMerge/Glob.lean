import MailMerge.Text

/-!
File name patterns: a star stands for any run of characters, a question mark for one character, and
every other character for itself. Neither star nor question mark stands for a line feed. The ends of
a name are matched together, so the time taken grows with the product of the two lengths. The four
equations of `accepts` say what each character of a pattern does.
-/

namespace MailMerge.Glob

/-- Whether a star or question mark can stand for `c`. -/
def covers (c : Char) : Bool := c ≠ '\n'

/-- The row of a pattern character that stands for one character, given the row `later` of the rest
of the pattern. -/
def advance (test : Char → Bool) : Text → List Bool → List Bool
  | [], _ => [false]
  | c :: t, later => (test c && later.tail.headD false) :: advance test t later.tail

/-- The row of a star, given the row `later` of the rest of the pattern. -/
def spread : Text → List Bool → List Bool
  | [], later => [later.headD false]
  | c :: t, later =>
    let rest := spread t later.tail
    (later.headD false || (covers c && rest.headD false)) :: rest

/-- For a name and all its ends, the longest first, whether they have the form of a pattern. -/
def row (name : Text) : Text → List Bool
  | [] => name.map (fun _ => false) ++ [true]
  | '*' :: glob => spread name (row name glob)
  | '?' :: glob => advance covers name (row name glob)
  | g :: glob => advance (g == ·) name (row name glob)

/-- Whether a name has the form of a pattern. -/
def accepts (glob name : Text) : Bool := (row name glob).headD false

/-- Whether a name holds a star or a question mark. -/
def isPattern (name : Text) : Bool := name.any fun c => c == '*' || c == '?'

/-! ### What each character does -/

theorem tail_row (c : Char) (t glob : Text) : (row (c :: t) glob).tail = row t glob := by
  fun_induction row t glob with
  | case1 => rfl
  | case2 glob ih => simp [row, spread, ih]
  | case3 glob ih => simp [row, advance, ih]
  | case4 g glob hs hq ih => simp [row, advance, ih]

/-- The empty pattern stands for the empty name. -/
theorem accepts_nil (name : Text) : accepts [] name = name.isEmpty := by
  cases name <;> rfl

/-- A star stands for nothing, or for a character and whatever it stands for after that. -/
theorem accepts_star (glob name : Text) :
    accepts ('*' :: glob) name =
      (accepts glob name || match name with
        | c :: t => covers c && accepts ('*' :: glob) t
        | [] => false) := by
  cases name with
  | nil => simp [accepts, row, spread]
  | cons c t => simp [accepts, row, spread, tail_row]

/-- A question mark stands for one character. -/
theorem accepts_mark (glob name : Text) :
    accepts ('?' :: glob) name =
      match name with
      | c :: t => covers c && accepts glob t
      | [] => false := by
  cases name with
  | nil => rfl
  | cons c t => simp [accepts, row, advance, tail_row]

/-- Every other character stands for itself. -/
theorem accepts_char {g : Char} (glob name : Text) (hs : g ≠ '*') (hq : g ≠ '?') :
    accepts (g :: glob) name =
      match name with
      | c :: t => g == c && accepts glob t
      | [] => false := by
  cases name with
  | nil => simp [accepts, row, advance]
  | cons c t => simp [accepts, row, advance, tail_row]

end MailMerge.Glob
