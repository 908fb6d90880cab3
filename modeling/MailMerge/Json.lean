import MailMerge.Decimal.Layout

/-!
JSON documents. Integers stay integers and all other numbers are floats; the members of an object
keep their order and have pairwise distinct names. A document is written without blanks, floats with
the fewest digits that read back.
-/

namespace MailMerge

/-- A JSON document. -/
inductive Json where
  | null
  | bool (b : Bool)
  | integer (i : Int)
  | real (x : Float)
  | string (t : Text)
  | array (items : List Json)
  | object (members : List (Text × Json))
deriving Inhabited

namespace Json

/-! ### Members -/

/-- Sets the member `name`: a known name keeps its place, a new one comes last. -/
def insert (name : Text) (value : Json) : List (Text × Json) → List (Text × Json)
  | [] => [(name, value)]
  | (n, v) :: r => if n = name then (n, value) :: r else (n, v) :: insert name value r

/-- The member `name`. -/
def member? (name : Text) : List (Text × Json) → Option Json
  | [] => none
  | (n, v) :: r => if n = name then some v else member? name r

theorem member?_insert_self (name : Text) (value : Json) (ms : List (Text × Json)) :
    member? name (insert name value ms) = some value := by
  fun_induction insert name value ms <;> simp_all [member?]

theorem member?_insert_of_ne {name other : Text} (h : other ≠ name) (value : Json)
    (ms : List (Text × Json)) : member? other (insert name value ms) = member? other ms := by
  fun_induction insert name value ms with
  | case1 => simp [member?, Ne.symm h]
  | case2 v r => simp [member?, Ne.symm h]
  | case3 n v r _ ih => simp [member?, ih]

/-! ### Equality -/

mutual

/-- Whether two documents are equal. -/
def same : Json → Json → Bool
  | .null, .null => true
  | .bool a, .bool b => a == b
  | .integer a, .integer b => a == b
  | .real a, .real b => decide (a = b)
  | .string a, .string b => a == b
  | .array a, .array b => sameItems a b
  | .object a, .object b => sameMembers a b
  | _, _ => false

/-- Whether two lists of documents are equal. -/
def sameItems : List Json → List Json → Bool
  | [], [] => true
  | a :: as, b :: bs => same a b && sameItems as bs
  | _, _ => false

/-- Whether two lists of members are equal. -/
def sameMembers : List (Text × Json) → List (Text × Json) → Bool
  | [], [] => true
  | (m, a) :: as, (n, b) :: bs => m == n && same a b && sameMembers as bs
  | _, _ => false

end

mutual

theorem same_iff : ∀ a b : Json, same a b = true ↔ a = b
  | .null, b => by cases b <;> simp [same]
  | .bool a, b => by cases b <;> simp [same]
  | .integer a, b => by cases b <;> simp [same]
  | .real a, b => by cases b <;> simp [same]
  | .string a, b => by cases b <;> simp [same]
  | .array as, b => by cases b <;> simp [same, sameItems_iff as]
  | .object as, b => by cases b <;> simp [same, sameMembers_iff as]

theorem sameItems_iff : ∀ as bs : List Json, sameItems as bs = true ↔ as = bs
  | [], bs => by cases bs <;> simp [sameItems]
  | a :: as, bs => by cases bs <;> simp [sameItems, same_iff a, sameItems_iff as]

theorem sameMembers_iff : ∀ as bs : List (Text × Json), sameMembers as bs = true ↔ as = bs
  | [], bs => by cases bs <;> simp [sameMembers]
  | (m, a) :: as, bs => by
    cases bs <;> simp [sameMembers, same_iff a, sameMembers_iff as, Prod.ext_iff, and_assoc]

end

instance : DecidableEq Json := fun a b => decidable_of_iff _ (same_iff a b)

/-! ### Writing -/

/-- One of the sixteen hexadecimal digits, in lower case. -/
def hexDigit (n : Nat) : Char := Nat.digitChar (n % 16)

/-- A character inside a written string. -/
def escape (c : Char) : Text :=
  match c with
  | '"' => ['\\', '"']
  | '\\' => ['\\', '\\']
  | '\x08' => ['\\', 'b']
  | '\x0c' => ['\\', 'f']
  | '\n' => ['\\', 'n']
  | '\r' => ['\\', 'r']
  | '\t' => ['\\', 't']
  | c =>
    if c.toNat < 0x20 then ['\\', 'u', '0', '0', hexDigit (c.toNat / 16), hexDigit c.toNat] else [c]

/-- A string between quotes. -/
def quote (t : Text) : Text := '"' :: (t.flatMap escape ++ ['"'])

mutual

/-- A document without blanks. -/
def write : Json → Text
  | .null => "null".toList
  | .bool b => Text.ofBool b
  | .integer i => Text.ofInt i
  | .real x => Decimal.json x
  | .string t => quote t
  | .array items => '[' :: (writeItems items ++ [']'])
  | .object members => '\x7b' :: (writeMembers members ++ ['\x7d'])

/-- The elements of an array, with commas between them. -/
def writeItems : List Json → Text
  | [] => []
  | [v] => v.write
  | v :: w :: r => v.write ++ ',' :: writeItems (w :: r)

/-- The members of an object, with commas between them. -/
def writeMembers : List (Text × Json) → Text
  | [] => []
  | [(n, v)] => quote n ++ ':' :: v.write
  | (n, v) :: m :: r => quote n ++ ':' :: (v.write ++ ',' :: writeMembers (m :: r))

end

end Json
end MailMerge
