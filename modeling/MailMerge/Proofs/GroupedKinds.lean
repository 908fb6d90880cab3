import MailMerge.Proofs.KindBarriers
import MailMerge.Proofs.TokenPlaces
import MailMerge.Proofs.UnknownKinds

/-!
# Unknown kinds of data in groups

A condition that names an unknown kind of data is refused with that name. In parentheses it is not:
since it cannot be read as a condition up to the closing parenthesis, the group is read as one of an
element, and what is reported is why it is no element, however many parentheses there are.
-/

namespace MailMerge

/-! ### Tokens of a grouped text -/

namespace Token

/-- More fuel than there are characters makes no difference. -/
theorem lexFrom_fuel {fuel fuel' line : Nat} {text : Text} (h : text.length ≤ fuel)
    (h' : text.length ≤ fuel') : lexFrom fuel line text = lexFrom fuel' line text := by
  induction fuel generalizing fuel' line text with
  | zero =>
    rw [List.length_eq_zero_iff.mp (Nat.le_zero.mp h)]
    cases fuel' <;> rfl
  | succ fuel ih =>
    cases text with
    | nil => cases fuel' <;> rfl
    | cons c r =>
      rw [List.length_cons] at h h'
      obtain ⟨fuel', rfl⟩ : ∃ m, fuel' = m + 1 := ⟨fuel' - 1, by omega⟩
      unfold lexFrom
      split
      · exact ih (by omega) (by omega)
      · split
        · exact ih (by omega) (by omega)
        · cases hf : front c r with
          | invalid slice => rfl
          | token t rest =>
            -- the token has at least one character
            obtain ⟨htext, hspelled, -⟩ := front_slice hf
            obtain ⟨d, u, hspelling, -⟩ := front_spelling hspelled
            have hlength := congrArg List.length htext
            rw [hspelling, List.length_cons, List.length_append, List.length_cons] at hlength
            dsimp only
            rw [ih (by omega : rest.length ≤ fuel) (by omega : rest.length ≤ fuel')]

theorem lex_if (text : Text) (line : Nat) : lex ("if ".toList ++ text) line =
    (lex text line).map (⟨.keyword .if_, line⟩ :: ·) := by
  have hfront : front 'i' ('f' :: ' ' :: text) = .token (.keyword .if_) (' ' :: text) := rfl
  have hrest : lexFrom (text.length + 2) line (' ' :: text) = lex text line :=
    (lexFrom_fuel (by simp) (by simp)).trans (lex_gap rfl text line)
  change lexFrom (text.length + 2 + 1) line ('i' :: 'f' :: ' ' :: text) = _
  rw [lexFrom, hfront]
  simp only [hrest]
  rfl

theorem lex_openParens (k : Nat) (r : Text) (line : Nat) :
    lex (List.replicate k '(' ++ r) line =
      (lex r line).map (List.replicate k ⟨.symbol .openParen, line⟩ ++ ·) := by
  induction k with
  | zero =>
    change lex r line = _
    cases lex r line <;> rfl
  | succ k ih =>
    change (lex (List.replicate k '(' ++ r) line).map (⟨.symbol .openParen, line⟩ :: ·) = _
    rw [ih]
    cases lex r line <;> rfl

theorem lex_closeParens (k line : Nat) : lex (List.replicate k ')') line =
    .ok (List.replicate k ⟨.symbol .closeParen, line⟩) := by
  induction k with
  | zero => rfl
  | succ k ih =>
    change (lex (List.replicate k ')') line).map (⟨.symbol .closeParen, line⟩ :: ·) = _
    rw [ih]
    rfl

/-- In groups a text has its tokens as they are, with the parentheses around them. -/
theorem lex_groups {text : Text} {line : Nat} {ts : List Located} (h : lex text line = .ok ts)
    (k : Nat) : ∃ behind, lex (List.replicate (k + 1) '(' ++ (text ++ List.replicate (k + 1) ')'))
      line = .ok (List.replicate (k + 1) ⟨.symbol .openParen, line⟩ ++ (ts ++ behind)) := by
  have hclose : lex (')' :: List.replicate k ')') 1 = .ok _ := lex_closeParens (k + 1) 1
  obtain ⟨n, vs, -, hv⟩ := lexFrom_before h rfl hclose
  have hinner : lex (text ++ List.replicate (k + 1) ')') line = .ok (ts ++ vs) := by
    rw [lex, List.length_append]
    exact hv
  refine ⟨vs, ?_⟩
  rw [lex_openParens, hinner]
  rfl

end Token
/-! ### Groups around an element -/

namespace Element

open Parsing

/-- What is wrong with some tokens, if they are read as an element in a group that is opened on line
`line`: they begin no element, or one that no closing parenthesis follows. -/
inductive NotGrouped (line : Nat) (ts : List Located) : TemplateError → Prop where
  | element {e : TemplateError} (h : parse ts = .error e) : NotGrouped line ts e
  | parenthesis {a : Element} {t : Located} {r : List Located} (h : parse ts = .ok (a, t :: r))
      (ht : t.token ≠ .symbol .closeParen) : NotGrouped line ts ⟨.missingParenthesis [], line⟩

variable {line l : Nat} {e : TemplateError} {x y y' : List Located}

theorem NotGrouped.knowsKinds {ts : List Located} (h : NotGrouped line ts e) : e.KnowsKinds := by
  cases h with
  | element h => exact parse_fails h
  | parenthesis _ _ => exact nofun

theorem sum_error {depth : Nat} {ts : List Located} (h : operand depth ts = .error e) :
    sum (operand depth) ts = .error e := by
  unfold sum chain
  rw [h]
  rfl

/-- It is what is wrong with the group, whatever follows an `is` among the tokens. -/
theorem NotGrouped.operand_error (h : NotGrouped line (x ++ ⟨.keyword .is_, l⟩ :: y) e)
    {depth : Nat} (hd : x.length < depth) :
    operand (depth + 1) (⟨.symbol .openParen, line⟩ :: (x ++ ⟨.keyword .is_, l⟩ :: y')) =
      .error e := by
  have hsame : Alike (⟨.keyword .is_, l⟩ :: y) (⟨.keyword .is_, l⟩ :: y') x.length
      (parse (x ++ ⟨.keyword .is_, l⟩ :: y))
      (sum (operand depth) (x ++ ⟨.keyword .is_, l⟩ :: y')) := by
    refine sum_alike (operand_alike (x.length + 1) ?_ hd) (Nat.lt_succ_self _)
    simp only [List.length_append, List.length_cons]
    omega
  unfold operand
  generalize sum (operand depth) (x ++ ⟨.keyword .is_, l⟩ :: y') = r' at hsame ⊢
  cases h with
  | element h =>
    rw [h] at hsame
    cases hsame
    rfl
  | @parenthesis a t r h ht =>
    rw [h] at hsame
    generalize hr : (Except.ok (a, t :: r) : Except TemplateError (Element × List Located)) = q
      at hsame
    cases hsame with
    | error _ => cases hr
    | @ok b z _ =>
      cases z with
      | nil => rfl
      | cons s z =>
        cases hr
        obtain ⟨t, l'⟩ := t
        cases t with
        | symbol m =>
          cases m with
          | closeParen => exact absurd rfl ht
          | _ => rfl
        | _ => rfl

/-- And of all groups around it. -/
theorem NotGrouped.operand_error_groups (h : NotGrouped line (x ++ ⟨.keyword .is_, l⟩ :: y) e)
    {depth : Nat} (hd : x.length < depth) (k : Nat) :
    operand (depth + k + 1) (List.replicate (k + 1) ⟨.symbol .openParen, line⟩ ++
      (x ++ ⟨.keyword .is_, l⟩ :: y')) = .error e := by
  induction k with
  | zero => exact h.operand_error hd
  | succ k ih =>
    rw [List.replicate_succ, List.cons_append, operand, sum_error (by exact ih)]
    rfl

theorem NotGrouped.parse_error (h : NotGrouped line (x ++ ⟨.keyword .is_, l⟩ :: y) e) (k : Nat) :
    parse (List.replicate (k + 1) ⟨.symbol .openParen, line⟩ ++
      (x ++ ⟨.keyword .is_, l⟩ :: y')) = .error e := by
  have hd : x.length < (x ++ (⟨.keyword .is_, l⟩ : Located) :: y').length := by
    simp only [List.length_append, List.length_cons]
    omega
  have hlength : (List.replicate (k + 1) (⟨.symbol .openParen, line⟩ : Located) ++
      (x ++ ⟨.keyword .is_, l⟩ :: y')).length =
        (x ++ (⟨.keyword .is_, l⟩ : Located) :: y').length + k + 1 := by
    rw [List.length_append, List.length_replicate]
    omega
  rw [parse, hlength]
  exact sum_error (h.operand_error_groups hd k)

end Element

/-! ### Groups around a condition -/

namespace Condition

open Parsing
open Element (NotGrouped)

variable {line l : Nat} {e : TemplateError} {ts x y : List Located}

/-- What is an element before something that ends a condition is one. -/
theorem parse_element {a : Element} {rest : List Located} (h : Element.parse ts = .ok (a, rest))
    (hr : Before EndsPhrase rest) : parse ts = .ok (.single a, rest) := by
  obtain ⟨u, rfl, hu⟩ := element_sound h
  exact parse_complete (.one (.one (.one (.single hu)))) hr

/-- Tokens that begin no condition make up no group of an element. -/
theorem exists_notGrouped (h : parse ts = .error e) (line : Nat) : ∃ e', NotGrouped line ts e' := by
  cases hp : Element.parse ts with
  | error e' => exact ⟨e', .element hp⟩
  | ok p =>
    obtain ⟨a, rest⟩ := p
    cases rest with
    | nil =>
      rw [parse_element hp .nil] at h
      cases h
    | cons t r =>
      by_cases ht : t.token = .symbol .closeParen
      · rw [parse_element hp (.cons (ht ▸ endsPhrase_closeParen) r)] at h
        cases h
      · exact ⟨_, .parenthesis hp ht⟩

/-- A group that can be read neither as one of a condition nor as one of an element. -/
theorem disjunction_group_error {depth : Nat} {e' : TemplateError}
    (hc : disjunction (primary depth) ts = .error e')
    (he : Element.parse (⟨.symbol .openParen, line⟩ :: ts) = .error e) :
    disjunction (primary (depth + 1)) (⟨.symbol .openParen, line⟩ :: ts) = .error e := by
  have hgroup : grouped? (disjunction (primary depth)) ts = none := by
    unfold grouped?
    rw [hc]
  have htest : test (⟨.symbol .openParen, line⟩ :: ts) = .error e := by
    unfold test
    rw [he]
    rfl
  have hprimary : primary (depth + 1) (⟨.symbol .openParen, line⟩ :: ts) = .error e := by
    simp only [primary, hgroup, htest]
  have hnegation : negation (primary (depth + 1)) (⟨.symbol .openParen, line⟩ :: ts) =
      .error e := by
    rw [negation, if_neg (by simp), hprimary]
  unfold disjunction chain
  rw [hnegation]
  rfl

/-- Around tokens with which something is wrong both as a condition and as an element, all groups
are refused for what is wrong with the element. -/
theorem parse_groups_error {z : List Located}
    (hc : ∀ depth, x.length < depth →
      ∃ e', disjunction (primary depth) (x ++ ⟨.keyword .is_, l⟩ :: z) = .error e')
    (he : NotGrouped line (x ++ ⟨.keyword .is_, l⟩ :: y) e) (k : Nat) :
    parse (List.replicate (k + 1) ⟨.symbol .openParen, line⟩ ++
      (x ++ ⟨.keyword .is_, l⟩ :: z)) = .error e := by
  have hgroups : ∀ depth, x.length < depth → disjunction (primary (depth + k + 1))
      (List.replicate (k + 1) ⟨.symbol .openParen, line⟩ ++ (x ++ ⟨.keyword .is_, l⟩ :: z)) =
        .error e := by
    intro depth hd
    induction k with
    | zero =>
      obtain ⟨e', he'⟩ := hc depth hd
      exact disjunction_group_error he' (he.parse_error 0)
    | succ k ih =>
      rw [List.replicate_succ, List.cons_append]
      refine disjunction_group_error ih ?_
      rw [← List.cons_append, ← List.replicate_succ]
      exact he.parse_error (k + 1)
  have hd : x.length < (x ++ (⟨.keyword .is_, l⟩ : Located) :: z).length := by
    simp only [List.length_append, List.length_cons]
    omega
  have hlength : (List.replicate (k + 1) (⟨.symbol .openParen, line⟩ : Located) ++
      (x ++ ⟨.keyword .is_, l⟩ :: z)).length =
        (x ++ (⟨.keyword .is_, l⟩ : Located) :: z).length + k + 1 := by
    rw [List.length_append, List.length_replicate]
    omega
  rw [parse, hlength]
  exact hgroups _ hd

/-- An unknown kind is no longer reported in groups. -/
theorem parse_groups_of_unknownKind {name : Text} {n : Nat}
    (h : parse ts = .error ⟨.unknownKind name, n⟩) (he : NotGrouped line ts e) (k : Nat)
    (behind : List Located) :
    parse (List.replicate (k + 1) ⟨.symbol .openParen, line⟩ ++ (ts ++ behind)) = .error e := by
  rcases parse_fails h with hknown | ⟨x, l, t, y, rfl, ht⟩
  · exact absurd rfl (hknown name)
  · rw [List.append_assoc, List.cons_append, List.cons_append]
    refine parse_groups_error (fun depth hd => ?_) he k
    -- the condition fails as it does alone
    have hsame : Alike (⟨.keyword .is_, l⟩ :: t :: y) (⟨.keyword .is_, l⟩ :: t :: (y ++ behind))
        x.length (parse (x ++ ⟨.keyword .is_, l⟩ :: t :: y))
        (disjunction (primary depth) (x ++ ⟨.keyword .is_, l⟩ :: t :: (y ++ behind))) := by
      refine disjunction_alike (primary_alike ht (x.length + 1) ?_ hd) (Nat.lt_succ_self _)
      simp only [List.length_append, List.length_cons]
      omega
    rw [h] at hsame
    generalize disjunction (primary depth) (x ++ ⟨.keyword .is_, l⟩ :: t :: (y ++ behind)) = r'
      at hsame ⊢
    cases hsame
    exact ⟨_, rfl⟩

end Condition

/-! ### Blocks with a condition in groups -/

theorem TemplateError.Cause.eq_of_inBlock {c : Cause} {block name : Text}
    (h : c.inBlock block = .unknownKind name) : c = .unknownKind name := by
  unfold inBlock at h
  split at h
  · cases h
  · cases h
  · exact h

theorem TemplateError.KnowsKinds.inBlock {e : TemplateError} (h : e.KnowsKinds) (text : Text)
    (line : Nat) : (e.inBlock text line).KnowsKinds :=
  fun name hname => h name (Cause.eq_of_inBlock hname)

namespace Statement

/-- The text of an `if` block whose condition is in `k` groups. -/
def ifInGroups (k : Nat) (condition : Text) : Text :=
  "if ".toList ++ (List.replicate k '(' ++ (condition ++ List.replicate k ')'))

variable {text : Text} {line n : Nat} {name : Text}

/-- A block is read as its condition is. -/
theorem parse_if {ts : List Located} (hl : Token.lex text line = .ok ts) :
    parse ("if ".toList ++ text) line = inBlock ("if ".toList ++ text) line (do
      let (c, rest) ← Condition.parse ts
      Parsing.expectEnd rest
      .ok (.if_ c)) := by
  have hlex : Token.lex ("if ".toList ++ text) line = .ok (⟨.keyword .if_, line⟩ :: ts) := by
    rw [Token.lex_if, hl]
    rfl
  rw [parse, hlex]
  have hbody : body (⟨.keyword .if_, line⟩ :: ts) = (do
      let (c, rest) ← Condition.parse ts
      .ok (.if_ c, rest)) := rfl
  change inBlock _ line (ofTokens (⟨.keyword .if_, line⟩ :: ts)) = _
  rw [ofTokens, hbody]
  cases Condition.parse ts with
  | error e => rfl
  | ok p => rfl

/-- A kind of data is unknown in a block since it is in its condition. -/
theorem unknownKind_of_parse_if
    (h : parse ("if ".toList ++ text) line = .error ⟨.unknownKind name, n⟩) :
    ∃ ts m, Token.lex text line = .ok ts ∧
      Condition.parse ts = .error ⟨.unknownKind name, m⟩ := by
  cases hl : Token.lex text line with
  | error e =>
    have hfound := Token.found_lex text line
    rw [hl] at hfound
    rw [parse, Token.lex_if, hl] at h
    cases hfound
    cases h
  | ok ts =>
    rw [parse_if hl] at h
    cases hc : Condition.parse ts with
    | error e =>
      rw [hc] at h
      obtain ⟨c, m⟩ := e
      have hcause : c.inBlock ("if ".toList ++ text) = .unknownKind name :=
        congrArg TemplateError.cause (Except.error.inj h)
      rw [TemplateError.Cause.eq_of_inBlock hcause] at hc
      exact ⟨ts, m, rfl, hc⟩
    | ok p =>
      obtain ⟨c, rest⟩ := p
      rw [hc] at h
      cases rest <;> cases h

/-- A condition that names an unknown kind of data is refused for something else as soon as it is in
groups, however many there are: for what is wrong with it in a group of an element. -/
theorem parse_unknownKind_groups
    (h : parse ("if ".toList ++ text) line = .error ⟨.unknownKind name, n⟩) :
    ∃ ts e, Token.lex text line = .ok ts ∧ Element.NotGrouped line ts e ∧
      ∀ k, parse (ifInGroups (k + 1) text) line =
          .error (e.inBlock (ifInGroups (k + 1) text) line) ∧
        (e.inBlock (ifInGroups (k + 1) text) line).KnowsKinds := by
  obtain ⟨ts, m, hl, hc⟩ := unknownKind_of_parse_if h
  obtain ⟨e, he⟩ := Condition.exists_notGrouped hc line
  refine ⟨ts, e, hl, he, fun k => ⟨?_, he.knowsKinds.inBlock _ line⟩⟩
  obtain ⟨behind, hgroups⟩ := Token.lex_groups hl k
  rw [ifInGroups, parse_if hgroups, Condition.parse_groups_of_unknownKind hc he k behind]
  rfl

/-- The second of two tests, on its own line, and the word for a kind on the next one. -/
theorem parse_unknownKind_groups_conjunction :
    let text : Text := "b is number and\n a->b[0] is\n date".toList
    parse ("if ".toList ++ text) 1 = .error ⟨.unknownKind "date".toList, 3⟩ ∧
      ∀ k, ∃ shown, parse (ifInGroups (k + 1) text) 1 = .error ⟨.missingParenthesis shown, 1⟩ := by
  intro text
  have h : parse ("if ".toList ++ text) 1 = .error ⟨.unknownKind "date".toList, 3⟩ := rfl
  obtain ⟨ts, e, hl, he, hk⟩ := parse_unknownKind_groups h
  refine ⟨h, fun k => ?_⟩
  cases hl
  cases he with
  | element he => cases he
  | parenthesis he ht => exact ⟨_, (hk k).1⟩

/-- So a group hides which kind is unknown, even around a condition without parentheses. -/
theorem unknownKind_hidden_by_group :
    ¬ ∀ (text name : Text) (line n : Nat), '(' ∉ text → ')' ∉ text →
      parse ("if ".toList ++ text) line = .error ⟨.unknownKind name, n⟩ →
      ∀ k, parse (ifInGroups k text) line = .error ⟨.unknownKind name, n⟩ := by
  intro h
  have hkind : parse (ifInGroups 1 "a is date".toList) 1 = .error ⟨.unknownKind "date".toList, 1⟩ :=
    h _ _ 1 1 (by decide) (by decide) rfl 1
  cases hkind

end Statement
end MailMerge
