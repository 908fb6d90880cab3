import MailMerge.Condition.Parser
import MailMerge.Token.Lexer

/-!
Statements: what a single expression block says. Its first token decides.
-/

namespace MailMerge

/-- The header of a loop. -/
structure Header where
  /-- The name of the current element. -/
  item : Text
  /-- The name of its position or key, if it has one. -/
  index : Option Text
  /-- What the loop runs over. -/
  target : Text
deriving DecidableEq, Repr, Inhabited

/-- What a block says. -/
inductive Statement where
  | if_ (condition : Condition)
  | else_
  | end_
  | for_ (header : Header)
  | emit (element : Element)
deriving Inhabited

namespace Statement

open Parsing

/-- The name of the index after a comma, if there is one. -/
def indexName : Parsing (Option Text)
  | ⟨.symbol .comma, _⟩ :: ts => do
    let (i, rest) ← plainName "loop index name".toList ts
    .ok (some i, rest)
  | ts => .ok (none, ts)

/-- The header of a loop, after `for`. -/
def header : Parsing Header := fun ts => do
  let (item, ts) ← plainName "loop item name".toList ts
  let (index, ts) ← indexName ts
  let ((), ts) ← expect (.keyword .in_) ts
  match ts with
  | [] => .error endOfBlock
  | ⟨.path p, _⟩ :: rest => .ok (⟨item, index, p⟩, rest)
  | t :: _ => .error (expected "an access pattern after 'in'".toList t)

/-- A statement at the front of a list of tokens. -/
def body (ts : List Located) : Except TemplateError (Statement × List Located) :=
  match ts with
  | ⟨.keyword k, line⟩ :: rest =>
    match k with
    | .if_ => do
      let (c, rest) ← Condition.parse rest
      .ok (.if_ c, rest)
    | .else_ => .ok (.else_, rest)
    | .end_ => .ok (.end_, rest)
    | .for_ => do
      let (h, rest) ← header rest
      .ok (.for_ h, rest)
    | k => .error ⟨.unknownKeyword k.spelling, line⟩
  | ts => do
    let (e, rest) ← Element.parse ts
    .ok (.emit e, rest)

/-- The statement that the tokens of a block make up. -/
def ofTokens (ts : List Located) : Except TemplateError Statement := do
  let (s, rest) ← body ts
  expectEnd rest
  .ok s

/-- Puts what is known about the enclosing block into an error. -/
def inBlock {α : Type} (text : Text) (line : Nat) (r : Except TemplateError α) :
    Except TemplateError α :=
  r.mapError (·.inBlock text line)

/-- The statement of the block `text`, which starts on line `line`. -/
def parse (text : Text) (line : Nat) : Except TemplateError Statement := do
  let ts ← Token.lex text line
  inBlock text line (ofTokens ts)

/-- A statement takes all tokens. -/
theorem ofTokens_eq_ok_iff {ts : List Located} {s : Statement} :
    ofTokens ts = .ok s ↔ body ts = .ok (s, []) := by
  unfold ofTokens
  cases body ts with
  | error e => exact ⟨nofun, nofun⟩
  | ok r =>
    obtain ⟨s', _ | ⟨t, rest⟩⟩ := r
    · constructor
      · rintro ⟨⟩
        rfl
      · rintro ⟨⟩
        rfl
    · exact ⟨nofun, nofun⟩

theorem inBlock_eq_ok_iff {α : Type} {text : Text} {line : Nat} {r : Except TemplateError α}
    {a : α} : inBlock text line r = .ok a ↔ r = .ok a := by
  cases r with
  | error e => exact ⟨nofun, nofun⟩
  | ok b => exact Iff.rfl

/-- What a block says depends on its tokens only. -/
theorem parse_eq_ok_iff {text : Text} {line : Nat} {s : Statement} :
    parse text line = .ok s ↔ ∃ ts, Token.lex text line = .ok ts ∧ body ts = .ok (s, []) := by
  unfold parse
  cases Token.lex text line with
  | error e => exact ⟨nofun, nofun⟩
  | ok ts =>
    change inBlock text line (ofTokens ts) = .ok s ↔ _
    rw [inBlock_eq_ok_iff, ofTokens_eq_ok_iff]
    constructor
    · exact fun h => ⟨ts, rfl, h⟩
    · rintro ⟨_, ⟨⟩, h⟩
      exact h

end Statement
end MailMerge
