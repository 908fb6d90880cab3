import MailMerge.TemplateError
import MailMerge.Token

/-!
Cutting the text of a block into tokens, the longest one first. Blanks separate tokens and line
feeds count lines; everything else must belong to a token.
-/

namespace MailMerge.Token

/-! ### Single tokens -/

/-- Whether a character only separates tokens. Line feeds do so too. -/
def isSpace (c : Char) : Bool := c == ' ' || c == '\t' || c == '\r' || c == '\x0c'

/-- What stands at the front of a text that begins with neither a blank nor a line feed. -/
inductive Front where
  /-- A token, and what follows it. -/
  | token (t : Token) (rest : Text)
  /-- Characters that belong to no token. -/
  | invalid (slice : Text)
deriving DecidableEq, Repr

/-- A point and the digits after it, if there are any, and what follows. -/
def fraction (t : Text) : Text × Text :=
  match t with
  | '.' :: r =>
    if (r.takeWhile Char.isDigit).isEmpty then ([], t)
    else ('.' :: r.takeWhile Char.isDigit, r.dropWhile Char.isDigit)
  | _ => ([], t)

/-- A leading sign, and what follows. -/
def sign : Text → Text × Text
  | '+' :: r => (['+'], r)
  | '-' :: r => (['-'], r)
  | r => ([], r)

/-- The letter `e` with the digits of a power of ten, if there are any, and what follows. -/
def power (t : Text) : Text × Text :=
  match t with
  | c :: r =>
    if c = 'e' ∨ c = 'E' then
      let (s, r) := sign r
      if (r.takeWhile Char.isDigit).isEmpty then ([], t)
      else (c :: (s ++ r.takeWhile Char.isDigit), r.dropWhile Char.isDigit)
    else ([], t)
  | [] => ([], t)

/-- A number at the front of `t`, which begins with a digit. -/
def numberAt (t : Text) : Front :=
  let whole := t.takeWhile Char.isDigit
  let (places, r) := fraction (t.dropWhile Char.isDigit)
  let (ten, r) := power r
  .token (.number (whole ++ places ++ ten)) r

/-- The body of a quoted string: the longest run of plain characters and escapes, and what follows.
An escape is a backslash with any character but a line feed. -/
def quotedBody : Text → Text × Text
  | [] => ([], [])
  | '\\' :: c :: r =>
    if c = '\n' then ([], '\\' :: c :: r)
    else
      let (s, rest) := quotedBody r
      ('\\' :: c :: s, rest)
  | c :: r =>
    if c = '"' ∨ c = '\\' ∨ c = '\n' then ([], c :: r)
    else
      let (s, rest) := quotedBody r
      (c :: s, rest)

/-- A quoted string, after its opening quote. -/
def quotedAt (t : Text) : Front :=
  match quotedBody t with
  | (s, '"' :: r) => .token (.quoted ('"' :: (s ++ ['"']))) r
  | (s, _) => .invalid ('"' :: s)

/-- How a path goes on. -/
inductive Step where
  /-- A property after an arrow or a point, or an index in brackets. -/
  | more (text rest : Text)
  /-- An index without its closing bracket. -/
  | broken (text : Text)
  /-- Not at all. -/
  | stop
deriving DecidableEq, Repr

/-- The name after an arrow or a point. -/
def property (mark t : Text) : Step :=
  if (t.takeWhile isWordChar).isEmpty then .stop
  else .more (mark ++ t.takeWhile isWordChar) (t.dropWhile isWordChar)

/-- The next step of a path. -/
def step : Text → Step
  | '-' :: '>' :: r => property ['-', '>'] r
  | '.' :: r => property ['.'] r
  | '[' :: r =>
    if (r.takeWhile Char.isDigit).isEmpty then .stop
    else
      match r.dropWhile Char.isDigit with
      | ']' :: rest => .more ('[' :: (r.takeWhile Char.isDigit ++ [']'])) rest
      | _ => .broken ('[' :: r.takeWhile Char.isDigit)
  | _ => .stop

/-- The token that a whole path spells. A reserved word or truth value right before a minus sign is
a path like any other. -/
def ofWord (word rest : Text) : Token :=
  if rest.head? = some '-' then .path word
  else if word = Text.ofBool true then .bool true
  else if word = Text.ofBool false then .bool false
  else
    match Keyword.all.find? (·.spelling = word) with
    | some k => .keyword k
    | none => .path word

/-- Takes the steps of a path; `done` is the path so far. -/
def steps : Nat → Text → Text → Front
  | 0, done, r => .token (ofWord done r) r
  | fuel + 1, done, r =>
    match step r with
    | .more s rest => steps fuel (done ++ s) rest
    | .broken s => .invalid (done ++ s)
    | .stop => .token (ofWord done r) r

/-- A word or path at the front of `t`, which begins with a letter or an underscore. -/
def wordAt (t : Text) : Front :=
  steps t.length (t.takeWhile isWordChar) (t.dropWhile isWordChar)

/-- The longest symbol at the front of a text. -/
def symbol? : Text → Option (Symbol × Text)
  | '=' :: '=' :: r => some (.equalEqual, r)
  | '!' :: '=' :: r => some (.bangEqual, r)
  | '<' :: '=' :: r => some (.lessEqual, r)
  | '>' :: '=' :: r => some (.greaterEqual, r)
  | '+' :: r => some (.plus, r)
  | '-' :: r => some (.minus, r)
  | '*' :: r => some (.star, r)
  | '/' :: r => some (.slash, r)
  | '(' :: r => some (.openParen, r)
  | ')' :: r => some (.closeParen, r)
  | ',' :: r => some (.comma, r)
  | '=' :: r => some (.equals, r)
  | '<' :: r => some (.less, r)
  | '>' :: r => some (.greater, r)
  | '!' :: r => some (.bang, r)
  | _ => none

/-- The front of the text `c :: r`. -/
def front (c : Char) (r : Text) : Front :=
  if c.isDigit then numberAt (c :: r)
  else if isWordStart c then wordAt (c :: r)
  else if c = '"' then quotedAt r
  else
    match symbol? (c :: r) with
    | some (s, rest) => .token (.symbol s) rest
    | none => .invalid [c]

/-! ### Whole blocks -/

/-- The tokens of a text that starts on line `line`; at most `fuel` tokens and blanks are taken. -/
def lexFrom : Nat → Nat → Text → Except TemplateError (List Located)
  | _, _, [] => .ok []
  | 0, line, c :: _ => .error ⟨.invalidCharacter [c], line⟩
  | fuel + 1, line, c :: r =>
    if c = '\n' then lexFrom fuel (line + 1) r
    else if isSpace c then lexFrom fuel line r
    else
      match front c r with
      | .token t rest => (lexFrom fuel line rest).map (⟨t, line⟩ :: ·)
      | .invalid slice => .error ⟨.invalidCharacter slice, line⟩

/-- The tokens of a block that starts on line `line`. -/
def lex (text : Text) (line : Nat) : Except TemplateError (List Located) :=
  lexFrom text.length line text

end MailMerge.Token
