import MailMerge.Proofs.Chains
import MailMerge.Proofs.SteadyParsing
import MailMerge.Template.Parser

/-!
# What a block says does not depend on its line

The parsers read the same tokens alike wherever they stand, and the lexer finds the same tokens on
any line; hence a block that says something says the same thing on every other line.
-/

namespace MailMerge

open Parsing

/-- The same tokens, on whatever lines. -/
def SameTokens (u v : List Located) : Prop := u.map Located.token = v.map Located.token

/-- What a steady parser reads to the end, it reads wherever the tokens stand. -/
theorem Parsing.Steady.relocate {α : Type} {p : Parsing α} (hp : Steady p) {u v : List Located}
    {a : α} (h : p u = .ok (a, [])) (hs : SameTokens u v) : p v = .ok (a, []) := by
  have hu := hp (u.map Located.token)
  generalize hts : u.map Located.token = ts at hu
  have hv : v.map Located.token = ts := hs.symm.trans hts
  cases hu with
  | ok b hok =>
    obtain ⟨-, y, -, -, hy, hread⟩ := hok.exists_rest hts
    obtain ⟨-, y', -, -, hy', hread'⟩ := hok.exists_rest hv
    rw [hread] at h
    cases h
    rw [← hy, List.map_nil, List.map_eq_nil_iff] at hy'
    rw [hread', hy']
  | ending hend =>
    rw [hend u hts] at h
    cases h
  | stop _ hstop =>
    obtain ⟨-, line, -, -, -, -, hread⟩ := hstop.exists_line hts
    rw [hread] at h
    cases h

/-- An element that is read to its end is read on other lines too. -/
theorem Element.parse_relocate {u v : List Located} {e : Element} (h : parse u = .ok (e, []))
    (hs : SameTokens u v) : parse v = .ok (e, []) :=
  parse_steady.relocate h hs

/-- A condition that is read to its end is read on other lines too. -/
theorem Condition.parse_relocate {u v : List Located} {c : Condition} (h : parse u = .ok (c, []))
    (hs : SameTokens u v) : parse v = .ok (c, []) :=
  parse_steady.relocate h hs

namespace Statement

/-- A statement says the same on other lines. -/
theorem body_relocate {u v : List Located} {s : Statement} (h : body u = .ok (s, []))
    (hs : SameTokens u v) : body v = .ok (s, []) :=
  body_steady.relocate h hs

/-- The tokens of a text are the same on every line. -/
theorem lexFrom_relocate {fuel line : Nat} {text : Text} {ts : List Located}
    (h : Token.lexFrom fuel line text = .ok ts) (line' : Nat) :
    ∃ us, Token.lexFrom fuel line' text = .ok us ∧ SameTokens ts us := by
  induction fuel generalizing line line' text ts with
  | zero =>
    cases text with
    | nil =>
      cases h
      exact ⟨[], rfl, rfl⟩
    | cons c r => cases h
  | succ fuel ih =>
    cases text with
    | nil =>
      cases h
      exact ⟨[], rfl, rfl⟩
    | cons c r =>
      unfold Token.lexFrom at h ⊢
      split at h
      · next hc =>
        rw [if_pos hc]
        exact ih h _
      · next hc =>
        rw [if_neg hc]
        split at h
        · next hspace =>
          rw [if_pos hspace]
          exact ih h line'
        · next hspace =>
          rw [if_neg hspace]
          split at h
          · next t rest _ =>
            obtain ⟨us, hu, h⟩ := ok_of_map h
            obtain ⟨vs, hv, hs⟩ := ih hu line'
            cases h
            rw [hv]
            exact ⟨⟨t, line'⟩ :: vs, rfl, congrArg (t :: ·) hs⟩
          · cases h

/-- A block that says something on one line says it on every line. -/
theorem parse_relocate {text : Text} {line : Nat} {s : Statement} (h : parse text line = .ok s)
    (line' : Nat) : parse text line' = .ok s := by
  obtain ⟨ts, hl, h⟩ := parse_eq_ok_iff.mp h
  obtain ⟨us, hu, hs⟩ := lexFrom_relocate hl line'
  exact parse_eq_ok_iff.mpr ⟨us, hu, body_relocate h hs⟩

end Statement

/-- A block holds the same on every line. -/
theorem Piece.read_relocate {text : Text} {isExpression : Bool} {line : Nat} {p : Piece}
    (h : read ⟨text, isExpression, line⟩ = .ok p) (line' : Nat) :
    read ⟨text, isExpression, line'⟩ = .ok p := by
  unfold read at h ⊢
  split at h
  · next he =>
    obtain ⟨s, hs, h⟩ := ok_of_bind h
    cases h
    rw [if_pos he]
    simp only [Statement.parse_relocate hs line', bind, Except.bind]
  · next he =>
    rw [if_neg he]
    exact h

end MailMerge
