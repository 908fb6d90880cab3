import MailMerge.Kind
import MailMerge.Operator

/-!
Why a template cannot be rendered against a record.
-/

namespace MailMerge

/-- Why rendering stops. -/
inductive RenderError where
  /-- A pattern leads to nothing. -/
  | notExists (pattern : Text)
  /-- An emitted element leads to nothing. -/
  | invalidAccess (element : Text)
  /-- Looked-up text does not write a value of its kind. -/
  | coercion (text : Text) (expected : Kind)
  /-- Values of two kinds are compared. -/
  | incomparable (left right : Kind)
  /-- Truth values are compared for anything but equality. -/
  | booleanComparison (operator : Comparison)
  /-- Arrays or objects are compared. -/
  | unsupportedComparison (kind : Kind)
  /-- A condition is no truth value. -/
  | expectedBoolean (element : Text) (found : Kind)
  /-- An operand is no number. -/
  | expectedNumber (element : Text) (found : Kind)
  /-- A loop runs over neither an array nor an object. -/
  | notIterable (pattern : Text) (found : Kind)
  /-- A function is called, but there are none. -/
  | noFunctions (function : Text)
  /-- There is no function of this name. -/
  | unknownFunction (name : Text)
  /-- A function fails. -/
  | functionFailure (function message : Text)
  /-- The data cannot be read. -/
  | dataAccess (details : Text)
deriving DecidableEq, Repr

namespace RenderError

/-- Whether the error says that the value asked for is absent. -/
def isMissing : RenderError → Bool
  | .notExists _ | .invalidAccess _ => true
  | _ => false

/-- The wording of an error. -/
def message : RenderError → Text
  | .notExists p => "Error: '".toList ++ p ++ "' does not exist.".toList
  | .invalidAccess p => "Error: Access pattern '".toList ++ p ++ "' is invalid.".toList
  | .coercion t k => "Error: '".toList ++ t ++ "' cannot be read as ".toList ++ k.name ++ ['.']
  | .incomparable l r => "Error: Cannot compare values of different types (left: ".toList ++ l.name
      ++ ", right: ".toList ++ r.name ++ ").".toList
  | .booleanComparison o => "Error: Booleans cannot be compared with '".toList ++ o.sign
      ++ "'.".toList
  | .unsupportedComparison k => "Error: Values of type ".toList ++ k.name
      ++ " cannot be compared.".toList
  | .expectedBoolean e k => "Error: '".toList ++ e ++ "' is ".toList ++ k.name
      ++ ", not a boolean.".toList
  | .expectedNumber e k => "Error: '".toList ++ e ++ "' is ".toList ++ k.name
      ++ "; arithmetic only operates over numbers.".toList
  | .notIterable p k => "Error: Cannot loop over '".toList ++ p ++ "' of type ".toList ++ k.name
      ++ ['.']
  | .noFunctions f => "Error: Cannot call '".toList ++ f
      ++ "': no functions file was supplied.".toList
  | .unknownFunction f => "Error: Unknown function '".toList ++ f ++ "'.".toList
  | .functionFailure f m => "Error: Function '".toList ++ f ++ "' failed: ".toList ++ m
  | .dataAccess d => "Error: Cannot read data: ".toList ++ d ++ ['.']

end RenderError
end MailMerge
