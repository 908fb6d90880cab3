import MailMerge.Text

/-!
The operators of elements and conditions.
-/

namespace MailMerge

/-- The operators of arithmetic. -/
inductive Arithmetic where
  | add
  | sub
  | mul
  | div
deriving DecidableEq, Repr

namespace Arithmetic

/-- The sign of an operator. -/
def sign : Arithmetic → Text
  | .add => ['+']
  | .sub => ['-']
  | .mul => ['*']
  | .div => ['/']

/-- The value of an operation; division by zero gives an infinity or no number. -/
def apply : Arithmetic → Float → Float → Float
  | .add, x, y => x + y
  | .sub, x, y => x - y
  | .mul, x, y => x * y
  | .div, x, y => x / y

end Arithmetic

/-- The comparison operators. -/
inductive Comparison where
  | less
  | lessEqual
  | greater
  | greaterEqual
  | equal
  | notEqual
deriving DecidableEq, Repr

namespace Comparison

/-- The sign of an operator. -/
def sign : Comparison → Text
  | .less => ['<']
  | .lessEqual => ['<', '=']
  | .greater => ['>']
  | .greaterEqual => ['>', '=']
  | .equal => ['=']
  | .notEqual => ['!', '=']

/-- Whether two values in the given order satisfy the comparison. -/
def holds : Comparison → Ordering → Bool
  | .less, o => o == .lt
  | .lessEqual, o => o != .gt
  | .greater, o => o == .gt
  | .greaterEqual, o => o != .lt
  | .equal, o => o == .eq
  | .notEqual, o => o != .eq

end Comparison
end MailMerge
