import MailMerge.Text

/-!
The tokens of expression blocks, and how they are spelled.
-/

namespace MailMerge

/-- The reserved words. -/
inductive Keyword where
  | if_
  | else_
  | end_
  | for_
  | in_
  | and_
  | or_
  | not_
  | exists_
  | is_
deriving DecidableEq, Repr

/-- All reserved words. -/
def Keyword.all : List Keyword :=
  [.if_, .else_, .end_, .for_, .in_, .and_, .or_, .not_, .exists_, .is_]

/-- The spelling of a reserved word. -/
def Keyword.spelling : Keyword → Text
  | .if_ => "if".toList
  | .else_ => "else".toList
  | .end_ => "end".toList
  | .for_ => "for".toList
  | .in_ => "in".toList
  | .and_ => "and".toList
  | .or_ => "or".toList
  | .not_ => "not".toList
  | .exists_ => "exists".toList
  | .is_ => "is".toList

/-- The operators and punctuation marks. -/
inductive Symbol where
  | plus
  | minus
  | star
  | slash
  | openParen
  | closeParen
  | comma
  | equals
  | equalEqual
  | bangEqual
  | lessEqual
  | greaterEqual
  | less
  | greater
  | bang
deriving DecidableEq, Repr

/-- The spelling of a symbol. -/
def Symbol.spelling : Symbol → Text
  | .plus => ['+']
  | .minus => ['-']
  | .star => ['*']
  | .slash => ['/']
  | .openParen => ['(']
  | .closeParen => [')']
  | .comma => [',']
  | .equals => ['=']
  | .equalEqual => ['=', '=']
  | .bangEqual => ['!', '=']
  | .lessEqual => ['<', '=']
  | .greaterEqual => ['>', '=']
  | .less => ['<']
  | .greater => ['>']
  | .bang => ['!']

/-- A token. Numbers, quoted strings and paths keep their spelling. -/
inductive Token where
  | number (spelling : Text)
  | quoted (spelling : Text)
  | bool (value : Bool)
  | path (pattern : Text)
  | keyword (word : Keyword)
  | symbol (mark : Symbol)
deriving DecidableEq, Repr

namespace Token

/-- Whether a character may begin a word. -/
def isWordStart (c : Char) : Bool := c.isAlpha || c == '_'

/-- Whether a character may continue a word. -/
def isWordChar (c : Char) : Bool := c.isAlphanum || c == '_'

/-- Whether a path is a single word, as the names of functions and loops must be. -/
def isPlainName (p : Text) : Bool := !p.isEmpty && p.all isWordChar

/-- The spelling of a token. -/
def spelling : Token → Text
  | .number t => t
  | .quoted t => t
  | .bool b => Text.ofBool b
  | .path p => p
  | .keyword k => k.spelling
  | .symbol s => s.spelling

/-- Whether a token is a reserved word. -/
def isKeyword : Token → Bool
  | .keyword _ => true
  | _ => false

/-- A token as messages name it. -/
def quote (t : Token) : Text := '\'' :: (t.spelling ++ ['\''])

end Token

/-- A token and the line it stands on. -/
structure Located where
  token : Token
  line : Nat
deriving DecidableEq, Repr

end MailMerge
