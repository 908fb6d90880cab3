import MailMerge.Json
import MailMerge.Json.Fault

/-!
Reading a JSON document from bytes. A number with a point, with a power of ten or outside the 64-bit
integers becomes a float in two roundings: of its first digits, as many as fit into 64 bits, and of
one product or quotient with a power of ten. Arrays and objects nest at most 127 deep.
-/

namespace MailMerge.Json

/-! ### Blanks and words -/

/-- Whether a byte is a space, tab, line feed or carriage return. -/
def isSpace (b : UInt8) : Bool := b == 0x20 || b == 0x0A || b == 0x09 || b == 0x0D

/-- The bytes after leading blanks. -/
def skipSpace (b : Bytes) : Bytes := b.dropWhile isSpace

/-- The bytes after the letters `word`, which must come next. -/
def expectWord : Bytes → Bytes → Except Fault Bytes
  | [], r => .ok r
  | _ :: _, [] => stop .endOfValue []
  | w :: ws, b :: r => if b = w then expectWord ws r else stop .expectedWord r

/-! ### Numbers -/

/-- Whether a byte is a decimal digit. -/
def isDigit (b : UInt8) : Bool := 0x30 ≤ b && b ≤ 0x39

/-- The value of a decimal digit. -/
def digitValue (b : UInt8) : Nat := b.toNat - 0x30

/-- Appends decimal digits to `s` while the result fits into 64 bits, and counts those appended. -/
def absorb : Nat → Bytes → Nat × Nat
  | s, [] => (s, 0)
  | s, d :: ds =>
    let n := 10 * s + digitValue d
    if n < UInt64.size then
      let (m, k) := absorb n ds
      (m, k + 1)
    else (s, 0)

/-- `x · 10 ^ e` in one rounding for exponents up to 308 in size; smaller ones first divide by
10 ^ 308 until the quotient is zero or the rest of the exponent is small enough. -/
def scale : Nat → Float → Int → Option Float
  | 0, x, _ => some x
  | fuel + 1, x, e =>
    if 308 < e.natAbs then
      if x == 0 then some x
      else if 0 ≤ e then none
      else scale fuel (x / Float.ofScientific 1 false 308) (e + 308)
    else if 0 ≤ e then
      let y := x * Float.ofScientific 1 false e.natAbs
      if y.isInf then none else some y
    else some (x / Float.ofScientific 1 false e.natAbs)

/-- The float with the given first digits and power of ten. -/
def float (positive : Bool) (digits : Nat) (exponent : Int) (rest : Bytes) :
    Except Fault (Json × Bytes) :=
  match scale 4 (Float.ofNat digits) exponent with
  | some x => .ok (.real (if positive then x else -x), rest)
  | none => stop .numberOutOfRange rest

/-- Appends the digits of a power of ten to `e`. A power past 32 bits puts the number out of range
if it is `large`, and otherwise makes it zero. -/
def power (large : Bool) : Nat → Bytes → Except Fault (Option Nat × Bytes)
  | e, [] => .ok (some e, [])
  | e, b :: r =>
    if isDigit b then
      let n := 10 * e + digitValue b
      if n < 2147483648 then power large n r
      else if large then stop .numberOutOfRange r
      else .ok (none, r.dropWhile isDigit)
    else .ok (some e, b :: r)

/-- The rest of a float after the `e` of its power of ten. -/
def exponent (positive : Bool) (digits : Nat) (start : Int) (b : Bytes) :
    Except Fault (Json × Bytes) :=
  let (up, r) : Bool × Bytes :=
    match b with
    | 0x2B :: r => (true, r)
    | 0x2D :: r => (false, r)
    | r => (true, r)
  match r with
  | [] => stop .endOfValue []
  | d :: r =>
    if isDigit d then do
      match ← power (up && digits != 0) (digitValue d) r with
      | (some e, rest) => float positive digits (if up then start + e else start - e) rest
      | (none, rest) => .ok (.real (if positive then 0.0 else -0.0), rest)
    else stop .invalidNumber r

/-- The rest of a number after the digits of its integer part, of which the last `surplus` ones were
left out. -/
def afterInteger (positive : Bool) (digits surplus : Nat) : Bytes → Except Fault (Json × Bytes)
  | 0x2E :: r =>
    let places := r.takeWhile isDigit
    let rest := r.dropWhile isDigit
    if places.isEmpty then
      match rest with
      | [] => stop .endOfValue []
      | _ :: _ => stopAt .invalidNumber rest
    else
      let (s, k) := absorb digits places
      match rest with
      | 0x65 :: r => exponent positive s ((surplus : Int) - k) r
      | 0x45 :: r => exponent positive s ((surplus : Int) - k) r
      | rest => float positive s ((surplus : Int) - k) rest
  | 0x65 :: r => exponent positive digits surplus r
  | 0x45 :: r => exponent positive digits surplus r
  | rest =>
    if surplus ≠ 0 then float positive digits surplus rest
    else if positive then .ok (.integer digits, rest)
    else if digits = 0 ∨ 9223372036854775808 < digits then .ok (.real (-(Float.ofNat digits)), rest)
    else .ok (.integer (-(digits : Int)), rest)

/-- A number after its sign. -/
def number (positive : Bool) : Bytes → Except Fault (Json × Bytes)
  | [] => stop .endOfValue []
  | b :: r =>
    if b = 0x30 then
      match r with
      | c :: _ => if isDigit c then stopAt .invalidNumber r else afterInteger positive 0 0 r
      | [] => afterInteger positive 0 0 []
    else if isDigit b then
      let (s, k) := absorb (digitValue b) (r.takeWhile isDigit)
      afterInteger positive s ((r.takeWhile isDigit).length - k) (r.dropWhile isDigit)
    else stop .invalidNumber r

/-! ### Strings -/

/-- The value of a hexadecimal digit. -/
def hexValue? (b : UInt8) : Option Nat :=
  if isDigit b then some (digitValue b)
  else if 0x61 ≤ b && b ≤ 0x66 then some (b.toNat - 0x61 + 10)
  else if 0x41 ≤ b && b ≤ 0x46 then some (b.toNat - 0x41 + 10)
  else none

/-- Four hexadecimal digits. -/
def hex4 : Bytes → Except Fault (Nat × Bytes)
  | a :: b :: c :: d :: r =>
    match hexValue? a, hexValue? b, hexValue? c, hexValue? d with
    | some w, some x, some y, some z => .ok (((w * 16 + x) * 16 + y) * 16 + z, r)
    | _, _, _, _ => stop .invalidEscape r
  | _ => stop .endOfString []

/-- The next byte must be `b`. -/
def surrogateMark (b : UInt8) : Bytes → Except Fault Bytes
  | [] => stop .endOfString []
  | c :: r => if c = b then .ok r else stop .endOfHexEscape r

/-- The character of a hexadecimal escape. One past 16 bits is written as a pair of escapes. -/
def unicode (b : Bytes) : Except Fault (Char × Bytes) := do
  let (n, r) ← hex4 b
  if 0xDC00 ≤ n ∧ n ≤ 0xDFFF then stop .loneSurrogate r
  else if 0xD800 ≤ n ∧ n ≤ 0xDBFF then
    let r ← surrogateMark 0x75 (← surrogateMark 0x5C r)
    let (m, r) ← hex4 r
    if 0xDC00 ≤ m ∧ m ≤ 0xDFFF then
      .ok (Char.ofNat (0x10000 + (n - 0xD800) * 0x400 + (m - 0xDC00)), r)
    else stop .loneSurrogate r
  else .ok (Char.ofNat n, r)

/-- The character of an escape, after its backslash. -/
def unescape : Bytes → Except Fault (Char × Bytes)
  | [] => stop .endOfString []
  | b :: r =>
    if b = 0x22 then .ok ('"', r)
    else if b = 0x5C then .ok ('\\', r)
    else if b = 0x2F then .ok ('/', r)
    else if b = 0x62 then .ok ('\x08', r)
    else if b = 0x66 then .ok ('\x0c', r)
    else if b = 0x6E then .ok ('\n', r)
    else if b = 0x72 then .ok ('\r', r)
    else if b = 0x74 then .ok ('\t', r)
    else if b = 0x75 then unicode r
    else stop .invalidEscape r

/-- The characters of a string up to its closing quote; `done` holds those before, last one first.
Once the bytes are no UTF-8, `ill` counts those of the text, escapes resolved, from the first
ill-formed one on. The complete string is then reported that many bytes before its end, which is
where the ill-formed byte stands unless escapes follow it. -/
def stringText : Nat → Option Nat → Text → Bytes → Except Fault (Text × Bytes)
  | 0, _, _, r => stop .endOfString r
  | _ + 1, _, _, [] => stop .endOfString []
  | fuel + 1, ill, done, b :: r =>
    if b = 0x22 then
      match ill with
      | none => .ok (done.reverse, r)
      | some n => .error ⟨.invalidUnicode, r.length + n⟩
    else if b = 0x5C then do
      let (c, r) ← unescape r
      stringText fuel (ill.map (· + Utf8.size [c])) (c :: done) r
    else if b < 0x20 then stop .controlCharacter r
    else
      match Utf8.front b r with
      | .char c rest => stringText fuel (ill.map (· + Utf8.size [c])) (c :: done) rest
      | .stray rest => stringText fuel (some (ill.getD 0 + (r.length + 1 - rest.length))) done rest

/-- A string after its opening quote. -/
def stringBody (b : Bytes) : Except Fault (Text × Bytes) := stringText (b.length + 1) none [] b

/-! ### Arrays and objects -/

/-- The elements of an array from one of them on, given how to read one; `done` holds those before,
last one first. -/
def items (item : Bytes → Except Fault (Json × Bytes)) :
    Nat → List Json → Bytes → Except Fault (List Json × Bytes)
  | 0, _, r => stop .endOfArray r
  | fuel + 1, done, b => do
    let (v, r) ← item b
    match skipSpace r with
    | [] => stop .endOfArray []
    | 0x5D :: r => .ok ((v :: done).reverse, r)
    | 0x2C :: r =>
      match skipSpace r with
      | [] => stop .endOfValue []
      | 0x5D :: r => stop .trailingComma r
      | r => items item fuel (v :: done) r
    | r => stopAt .expectedCommaOrBracket r

/-- An array after its opening bracket. -/
def arrayBody (item : Bytes → Except Fault (Json × Bytes)) (b : Bytes) :
    Except Fault (Json × Bytes) :=
  match skipSpace b with
  | [] => stop .endOfArray []
  | 0x5D :: r => .ok (.array [], r)
  | r => (items item (r.length + 1) [] r).map fun (vs, r) => (.array vs, r)

/-- A member, given how to read its value. -/
def member (item : Bytes → Except Fault (Json × Bytes)) :
    Bytes → Except Fault ((Text × Json) × Bytes)
  | 0x22 :: b => do
    let (n, r) ← stringBody b
    match skipSpace r with
    | [] => stop .endOfObject []
    | 0x3A :: r => (item r).map fun (v, r) => ((n, v), r)
    | r => stopAt .expectedColon r
  | r => stopAt .keyNotString r

/-- The members of an object from one of them on; `done` holds those before. A repeated name keeps
its first place and its last value. -/
def members (item : Bytes → Except Fault (Json × Bytes)) :
    Nat → List (Text × Json) → Bytes → Except Fault (List (Text × Json) × Bytes)
  | 0, _, r => stop .endOfObject r
  | fuel + 1, done, b => do
    let ((n, v), r) ← member item b
    match skipSpace r with
    | [] => stop .endOfObject []
    | 0x7D :: r => .ok (insert n v done, r)
    | 0x2C :: r =>
      match skipSpace r with
      | [] => stop .endOfValue []
      | 0x7D :: r => stop .trailingComma r
      | r => members item fuel (insert n v done) r
    | r => stopAt .expectedCommaOrBrace r

/-- An object after its opening brace. -/
def objectBody (item : Bytes → Except Fault (Json × Bytes)) (b : Bytes) :
    Except Fault (Json × Bytes) :=
  match skipSpace b with
  | [] => stop .endOfObject []
  | 0x7D :: r => .ok (.object [], r)
  | r => (members item (r.length + 1) [] r).map fun (ms, r) => (.object ms, r)

/-- A document, after any blanks; arrays and objects may nest `depth` deep in it. -/
def value (depth : Nat) (b : Bytes) : Except Fault (Json × Bytes) :=
  match skipSpace b with
  | [] => stop .endOfValue []
  | c :: r =>
    if c = 0x6E then (expectWord [0x75, 0x6C, 0x6C] r).map fun r => (.null, r)
    else if c = 0x74 then (expectWord [0x72, 0x75, 0x65] r).map fun r => (.bool true, r)
    else if c = 0x66 then (expectWord [0x61, 0x6C, 0x73, 0x65] r).map fun r => (.bool false, r)
    else if c = 0x2D then number false r
    else if isDigit c then number true (c :: r)
    else if c = 0x22 then (stringBody r).map fun (t, r) => (.string t, r)
    else if c = 0x5B then
      match depth with
      | 0 => stop .tooDeep r
      | depth + 1 => arrayBody (value depth) r
    else if c = 0x7B then
      match depth with
      | 0 => stop .tooDeep r
      | depth + 1 => objectBody (value depth) r
    else stop .expectedValue r
termination_by structural depth

/-- How deep arrays and objects may nest. -/
def depthLimit : Nat := 127

/-- The document that the bytes hold, and nothing else. -/
def read (source : Bytes) : Except Fault Json := do
  let (v, r) ← value depthLimit source
  match skipSpace r with
  | [] => .ok v
  | r => stopAt .trailingCharacters r

end MailMerge.Json
