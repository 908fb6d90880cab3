import MailMerge.Text.Blank

/-!
What can be wrong with a template, and on which line. Errors found inside a block that does not know
its own text and line leave both open, and the block completes them.
-/

namespace MailMerge

/-- Why a text is no template. -/
inductive TemplateError.Cause where
  /-- The last expression block is not closed. -/
  | unterminatedExpression (text : Text)
  /-- A token that cannot stand where it does. -/
  | unexpectedToken (found : Text)
  /-- A block ends too early. -/
  | unexpectedEnd (block : Text)
  /-- Characters that belong to no token. -/
  | invalidCharacter (text : Text)
  /-- A constant without a value. -/
  | malformedConstant (text : Text)
  /-- Something other than a kind of data after `is`. -/
  | unknownKind (name : Text)
  /-- A keyword that begins no block. -/
  | unknownKeyword (keyword : Text)
  /-- An `else` or `end` outside of all blocks. -/
  | unmatchedBlock (keyword : Text)
  /-- An `if` or `for` without its `end`. -/
  | unclosedBlock (text : Text)
  /-- A second `else`, or one in a loop. -/
  | duplicateElse
  /-- An opening parenthesis without its partner. -/
  | missingParenthesis (block : Text)
  /-- A call of something that is no plain name. -/
  | invalidFunctionName (name : Text)
  /-- Tokens after the end of a statement. -/
  | trailingTokens (found : Text)
deriving DecidableEq, Repr

/-- A cause and the line it stands on. Line 0 is still to be filled in. -/
structure TemplateError where
  cause : TemplateError.Cause
  line : Nat
deriving DecidableEq, Repr

namespace TemplateError

/-- Fills in the text of the block where it is still open. -/
def Cause.inBlock (block : Text) : Cause → Cause
  | .unexpectedEnd [] => .unexpectedEnd block.trim
  | .missingParenthesis [] => .missingParenthesis block.trim
  | c => c

/-- Whether the line of such an error may still be open. -/
def Cause.awaitsLine : Cause → Bool
  | .unexpectedEnd _ | .missingParenthesis _ | .unexpectedToken _ | .malformedConstant _
  | .unknownKind _ | .invalidFunctionName _ | .trailingTokens _ => true
  | _ => false

/-- Completes an error found inside the block `block`, which starts on line `line`. -/
def inBlock (block : Text) (line : Nat) (e : TemplateError) : TemplateError where
  cause := e.cause.inBlock block
  line := if e.line = 0 ∧ e.cause.awaitsLine then line else e.line

/-- The wording of a cause. -/
def Cause.message : Cause → Text
  | .unterminatedExpression t => "Expression '".toList ++ t ++ "' is never closed with '$'.".toList
  | .unexpectedToken t => "Unexpected token: ".toList ++ t ++ ['.']
  | .unexpectedEnd t => "Expression '".toList ++ t ++ "' ends unexpectedly.".toList
  | .invalidCharacter t => "Invalid character sequence '".toList ++ t ++ "'.".toList
  | .malformedConstant t => "Malformed constant ".toList ++ t ++ ['.']
  | .unknownKind t => "Unknown type '".toList ++ t
      ++ "'. Expected array, object, number, string or bool.".toList
  | .unknownKeyword t => "'".toList ++ t ++ "' cannot start a block.".toList
  | .unmatchedBlock t => "'".toList ++ t ++ "' has no matching 'if' or 'for'.".toList
  | .unclosedBlock t => "Block '".toList ++ t ++ "' is never closed with 'end'.".toList
  | .duplicateElse => "'else' is only allowed once inside an 'if' block.".toList
  | .missingParenthesis t => "Expected closing parenthesis ')' in '".toList ++ t ++ "'.".toList
  | .invalidFunctionName t => "'".toList ++ t ++ "' is not a valid function name.".toList
  | .trailingTokens t => "Extra tokens after expression: ".toList ++ t ++ ['.']

/-- The wording of an error. -/
def message (e : TemplateError) : Text :=
  "Syntax error on line ".toList ++ Text.ofNat e.line ++ ": ".toList ++ e.cause.message

end TemplateError
end MailMerge
