import MailMerge.Text.Utf8

/-!
What can be wrong with a JSON text, and where: the line and the column, both counted in bytes read.
-/

namespace MailMerge.Json

/-- Why a byte sequence is no JSON document. -/
inductive Reason where
  | endOfValue
  | endOfString
  | endOfArray
  | endOfObject
  | expectedColon
  | expectedCommaOrBracket
  | expectedCommaOrBrace
  | expectedWord
  | expectedValue
  | invalidEscape
  | invalidNumber
  | numberOutOfRange
  | invalidUnicode
  | controlCharacter
  | keyNotString
  | loneSurrogate
  | trailingComma
  | trailingCharacters
  | endOfHexEscape
  | tooDeep
deriving DecidableEq, Repr

/-- The wording of a reason. -/
def Reason.message : Reason → Text
  | .endOfValue => "EOF while parsing a value".toList
  | .endOfString => "EOF while parsing a string".toList
  | .endOfArray => "EOF while parsing a list".toList
  | .endOfObject => "EOF while parsing an object".toList
  | .expectedColon => "expected `:`".toList
  | .expectedCommaOrBracket => "expected `,` or `]`".toList
  | .expectedCommaOrBrace => "expected `,` or `\x7d`".toList
  | .expectedWord => "expected ident".toList
  | .expectedValue => "expected value".toList
  | .invalidEscape => "invalid escape".toList
  | .invalidNumber => "invalid number".toList
  | .numberOutOfRange => "number out of range".toList
  | .invalidUnicode => "invalid unicode code point".toList
  | .controlCharacter => "control character (\\u0000-\\u001F) found while parsing a string".toList
  | .keyNotString => "key must be a string".toList
  | .loneSurrogate => "lone leading surrogate in hex escape".toList
  | .trailingComma => "trailing comma".toList
  | .trailingCharacters => "trailing characters".toList
  | .endOfHexEscape => "unexpected end of hex escape".toList
  | .tooDeep => "recursion limit exceeded".toList

/-- A reason, and how many bytes were left when it was found. -/
structure Fault where
  reason : Reason
  left : Nat
deriving DecidableEq, Repr

/-- A fault found after everything before `rest` was read. -/
def stop {α : Type} (reason : Reason) (rest : Bytes) : Except Fault α :=
  .error ⟨reason, rest.length⟩

/-- A fault found by looking at the first byte of `rest`, which counts as read. -/
def stopAt {α : Type} (reason : Reason) (rest : Bytes) : Except Fault α :=
  .error ⟨reason, rest.length - 1⟩

/-- The wording of a fault in the text `source`. -/
def Fault.message (source : Bytes) (f : Fault) : Text :=
  let read := source.take (source.length - f.left)
  let line := 1 + read.count 10
  let column := (read.reverse.takeWhile (· ≠ 10)).length
  f.reason.message ++ " at line ".toList ++ Text.ofNat line ++ " column ".toList
    ++ Text.ofNat column

end MailMerge.Json
