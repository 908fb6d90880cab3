import MailMerge.Glob
import Mathlib.Data.List.Forall2

/-!
# File name patterns as regular expressions

A file name pattern is written as a regular expression that is anchored at both ends: a star as any
run of characters, a question mark as any character, and every other character as itself, with a
backslash before it if it has a meaning of its own in expressions. The expression matches a name
exactly if the pattern accepts it, and that is if the name can be cut into one part for every
character of the pattern. In expressions a point stands for every character but a line feed, so
stars and question marks leave names with line feeds out.
-/

namespace MailMerge

/-! ### Regular expressions -/

/-- A regular expression. -/
inductive Regex where
  | empty
  /-- The beginning of the text. -/
  | start
  /-- The end of the text. -/
  | stop
  /-- A character other than a line feed. -/
  | any
  | char (c : Char)
  /-- The expression any number of times. -/
  | star (r : Regex)
  /-- The two expressions one after the other. -/
  | seq (r s : Regex)
deriving DecidableEq, Repr

namespace Regex

/-- `Spans r before part after`: the expression matches the part of a text that stands between
`before` and `after`. -/
inductive Spans : Regex → Text → Text → Text → Prop where
  | empty {before after : Text} : Spans .empty before [] after
  | start {after : Text} : Spans .start [] [] after
  | stop {before : Text} : Spans .stop before [] []
  | any {before after : Text} {c : Char} (hc : c ≠ '\n') : Spans .any before [c] after
  | char {before after : Text} (c : Char) : Spans (.char c) before [c] after
  | done {r : Regex} {before after : Text} : Spans (.star r) before [] after
  | again {r : Regex} {before s t after : Text} (hs : Spans r before s (t ++ after))
      (ht : Spans (.star r) (before ++ s) t after) : Spans (.star r) before (s ++ t) after
  | seq {q r : Regex} {before s t after : Text} (hs : Spans q before s (t ++ after))
      (ht : Spans r (before ++ s) t after) : Spans (.seq q r) before (s ++ t) after

/-- An expression matches a text if it matches some part of it. -/
def IsMatch (r : Regex) (t : Text) : Prop :=
  ∃ before part after, t = before ++ part ++ after ∧ Spans r before part after

/-! ### Written expressions -/

/-- Whether a character has a meaning of its own in expressions, or in parts of them. -/
def isMeta (c : Char) : Bool := "\\.+*?()|[]\x7b\x7d^$#&-~".toList.contains c

/-- A character that stands for itself. -/
def escape (c : Char) : Text := if isMeta c then ['\\', c] else [c]

/-- What an expression is written with. -/
inductive Mark where
  | atom (r : Regex)
  /-- What is before it may be repeated. -/
  | again
deriving DecidableEq, Repr

/-- A character without a backslash. -/
def plainMark (c : Char) : Option Mark :=
  if c = '^' then some (.atom .start)
  else if c = '$' then some (.atom .stop)
  else if c = '.' then some (.atom .any)
  else if c = '*' then some .again
  else if isMeta c then none
  else some (.atom (.char c))

/-- The marks of a written expression. Alternatives, groups, classes and counts are not read. -/
def marks? : Text → Option (List Mark)
  | [] => some []
  | '\\' :: c :: t => if isMeta c then (marks? t).map (.atom (.char c) :: ·) else none
  | c :: t => do
    let m ← plainMark c
    (marks? t).map (m :: ·)

/-- The expression that marks make up. -/
def ofMarks? : List Mark → Option Regex
  | [] => some .empty
  | .atom r :: .again :: ms => (ofMarks? ms).map (.seq (.star r))
  | .atom r :: ms => (ofMarks? ms).map (.seq r)
  | .again :: _ => none

/-- The expression that a text writes. -/
def ofText? (t : Text) : Option Regex := (marks? t).bind ofMarks?

theorem marks?_escape (c : Char) (t : Text) :
    marks? (escape c ++ t) = (marks? t).map (.atom (.char c) :: ·) := by
  unfold escape
  by_cases hc : isMeta c = true
  · simp [hc, marks?]
  · have hne : ∀ d, isMeta d = true → c ≠ d := by
      rintro d hd rfl
      exact hc hd
    rw [if_neg hc, List.singleton_append, marks?.eq_3]
    · simp [plainMark, hc, hne '^' rfl, hne '$' rfl, hne '.' rfl, hne '*' rfl]
    · intro d t' h
      exact absurd h (hne '\\' rfl)

/-- What is not repeated is one atom of the expression. -/
theorem ofMarks?_atom (r : Regex) {ms : List Mark} (h : ∀ ns, ms ≠ .again :: ns) :
    ofMarks? (.atom r :: ms) = (ofMarks? ms).map (.seq r) := by
  rw [ofMarks?.eq_3]
  exact fun ns hns => h ns hns

/-! ### What some expressions match -/

variable {before part after : Text}

theorem spans_any : Spans .any before part after ↔ ∃ c, part = [c] ∧ c ≠ '\n' := by
  constructor
  · rintro ⟨⟩
    exact ⟨_, rfl, ‹_›⟩
  · rintro ⟨c, rfl, hc⟩
    exact .any hc

theorem spans_char {d : Char} : Spans (.char d) before part after ↔ ∃ c, part = [c] ∧ c = d := by
  constructor
  · rintro ⟨⟩
    exact ⟨d, rfl, rfl⟩
  · rintro ⟨c, rfl, rfl⟩
    exact .char c

theorem spans_seq {q r : Regex} : Spans (.seq q r) before part after ↔
    ∃ s t, part = s ++ t ∧ Spans q before s (t ++ after) ∧ Spans r (before ++ s) t after := by
  constructor
  · rintro ⟨⟩
    exact ⟨_, _, rfl, ‹_›, ‹_›⟩
  · rintro ⟨s, t, rfl, hs, ht⟩
    exact .seq hs ht

/-- Any character any number of times is a text without line feeds. -/
theorem spans_star_any : Spans (.star .any) before part after ↔ '\n' ∉ part := by
  constructor
  · generalize hr : Regex.star .any = r
    intro h
    induction h with
    | done => exact List.not_mem_nil
    | again hs _ _ ih =>
      cases hr
      obtain ⟨c, rfl, hc⟩ := spans_any.mp hs
      simp [Ne.symm hc, ih rfl]
    | _ => cases hr
  · intro h
    induction part generalizing before with
    | nil => exact .done
    | cons c part ih =>
      rw [List.mem_cons, not_or] at h
      exact .again (s := [c]) (.any (Ne.symm h.1)) (ih h.2)

end Regex

namespace Glob

/-! ### Names that a pattern describes -/

/-- What a character of a pattern stands for. -/
def Stands : Char → Text → Prop
  | '*', _ => True
  | '?', part => part.length = 1
  | g, part => part = [g]

/-- What a character of a pattern stands for if only a line feed stands for line feeds. -/
def StandsOnLine (g : Char) (part : Text) : Prop := Stands g part ∧ ('\n' ∈ part → g = '\n')

/-- The name can be cut into consecutive parts, one for every character of the pattern. -/
def IsCut (P : Char → Text → Prop) (glob name : Text) : Prop :=
  ∃ parts, List.Forall₂ P glob parts ∧ parts.flatten = name

theorem isCut_nil {P : Char → Text → Prop} {name : Text} : IsCut P [] name ↔ name = [] := by
  constructor
  · rintro ⟨parts, ⟨⟩, rfl⟩
    rfl
  · rintro rfl
    exact ⟨[], .nil, rfl⟩

theorem isCut_cons {P : Char → Text → Prop} {g : Char} {glob name : Text} :
    IsCut P (g :: glob) name ↔ ∃ s t, name = s ++ t ∧ P g s ∧ IsCut P glob t := by
  constructor
  · rintro ⟨parts, h, rfl⟩
    cases h with
    | @cons _ s _ parts hg hglob => exact ⟨s, parts.flatten, rfl, hg, parts, hglob, rfl⟩
  · rintro ⟨s, t, rfl, hg, parts, hglob, rfl⟩
    exact ⟨s :: parts, .cons hg hglob, rfl⟩

/-- A part of one character is cut off from the front of the name. -/
theorem exists_cut_one {name : Text} {p : Char → Prop} {P : Text → Prop} :
    (∃ s t, name = s ++ t ∧ (∃ c, s = [c] ∧ p c) ∧ P t) ↔ ∃ c t, name = c :: t ∧ p c ∧ P t := by
  constructor
  · rintro ⟨-, t, rfl, ⟨c, rfl, hc⟩, ht⟩
    exact ⟨c, t, rfl, hc, ht⟩
  · rintro ⟨c, t, rfl, hc, ht⟩
    exact ⟨[c], t, rfl, ⟨c, rfl, hc⟩, ht⟩

theorem standsOnLine_star {part : Text} : StandsOnLine '*' part ↔ '\n' ∉ part := by
  refine ⟨fun h hm => absurd (h.2 hm) (by decide), fun h => ⟨trivial, fun hm => absurd hm h⟩⟩

theorem standsOnLine_mark {part : Text} :
    StandsOnLine '?' part ↔ ∃ c, part = [c] ∧ c ≠ '\n' := by
  constructor
  · rintro ⟨hlen, hm⟩
    obtain ⟨c, rfl⟩ := List.length_eq_one_iff.mp hlen
    refine ⟨c, rfl, ?_⟩
    rintro rfl
    exact absurd (hm List.mem_cons_self) (by decide)
  · rintro ⟨c, rfl, hc⟩
    exact ⟨rfl, fun hm => absurd (List.mem_singleton.mp hm).symm hc⟩

theorem standsOnLine_char {g : Char} (hs : g ≠ '*') (hq : g ≠ '?') {part : Text} :
    StandsOnLine g part ↔ ∃ c, part = [c] ∧ c = g := by
  have hstands : Stands g part ↔ part = [g] := by
    unfold Stands
    split
    · exact absurd rfl hs
    · exact absurd rfl hq
    · rfl
  rw [StandsOnLine, hstands]
  constructor
  · rintro ⟨rfl, -⟩
    exact ⟨g, rfl, rfl⟩
  · rintro ⟨c, rfl, rfl⟩
    exact ⟨rfl, fun hm => (List.mem_singleton.mp hm).symm⟩

/-! ### The names that are accepted -/

/-- A star is cut off with what it stands for: nothing, or one character more. -/
theorem accepts_star_iff (glob name : Text) :
    accepts ('*' :: glob) name = true ↔
      ∃ s t, name = s ++ t ∧ '\n' ∉ s ∧ accepts glob t = true := by
  induction name with
  | nil =>
    rw [accepts_star, Bool.or_false]
    refine ⟨fun h => ⟨[], [], rfl, List.not_mem_nil, h⟩, ?_⟩
    rintro ⟨s, t, hst, -, h⟩
    rwa [(List.append_eq_nil_iff.mp hst.symm).2] at h
  | cons c name ih =>
    rw [accepts_star, Bool.or_eq_true, Bool.and_eq_true, ih]
    constructor
    · rintro (h | ⟨hc, s, t, rfl, hs, h⟩)
      · exact ⟨[], c :: name, rfl, List.not_mem_nil, h⟩
      · refine ⟨c :: s, t, rfl, ?_, h⟩
        have hne : c ≠ '\n' := by simpa [covers] using hc
        simp [Ne.symm hne, hs]
    · rintro ⟨s, t, hst, hs, h⟩
      cases s with
      | nil => exact .inl (hst ▸ h)
      | cons d s =>
        obtain ⟨rfl, rfl⟩ := List.cons.inj hst
        rw [List.mem_cons, not_or] at hs
        exact .inr ⟨by simpa [covers] using Ne.symm hs.1, s, t, rfl, hs.2, h⟩

/-- A name is accepted exactly if it can be cut as the pattern says. -/
theorem accepts_iff_isCut (glob name : Text) :
    accepts glob name = true ↔ IsCut StandsOnLine glob name := by
  induction glob generalizing name with
  | nil => rw [accepts_nil, List.isEmpty_iff, isCut_nil]
  | cons g glob ih =>
    rw [isCut_cons]
    simp only [← ih]
    by_cases hs : g = '*'
    · subst hs
      simp only [accepts_star_iff, standsOnLine_star]
    · by_cases hq : g = '?'
      · subst hq
        rw [accepts_mark]
        simp only [standsOnLine_mark, exists_cut_one]
        cases name with
        | nil => simp
        | cons c name => simp [covers]
      · rw [accepts_char glob name hs hq]
        simp only [standsOnLine_char hs hq, exists_cut_one]
        cases name with
        | nil => simp
        | cons c name => simp [eq_comm (a := g)]

/-! ### The expression of a pattern -/

/-- What a character of a pattern is in an expression. -/
def inExpression (g : Char) : Text :=
  if g = '*' then ['.', '*'] else if g = '?' then ['.'] else Regex.escape g

/-- A pattern as an expression, anchored at both ends. -/
def expression (glob : Text) : Text := '^' :: (glob.flatMap inExpression ++ ['$'])

/-- What a character of a pattern matches. -/
def regexOf (g : Char) : Regex :=
  if g = '*' then .star .any else if g = '?' then .any else .char g

/-- What a pattern matches, up to the end of a text. -/
def regexFrom (glob : Text) : Regex :=
  glob.foldr (fun g r => .seq (regexOf g) r) (.seq .stop .empty)

/-- The characters of a pattern are read back one by one. -/
theorem marks?_inExpression (glob : Text) :
    ∃ r ms, Regex.marks? (glob.flatMap inExpression ++ ['$']) = some (.atom r :: ms) ∧
      Regex.ofMarks? (.atom r :: ms) = some (regexFrom glob) := by
  induction glob with
  | nil => exact ⟨.stop, [], rfl, rfl⟩
  | cons g glob ih =>
    obtain ⟨r, ms, hmarks, hread⟩ := ih
    rw [List.flatMap_cons, List.append_assoc]
    have hatom : ∀ q, Regex.ofMarks? (.atom q :: .atom r :: ms) =
        some (.seq q (regexFrom glob)) := by
      intro q
      rw [Regex.ofMarks?_atom q (by simp), hread]
      rfl
    by_cases hs : g = '*'
    · subst hs
      refine ⟨.any, .again :: .atom r :: ms, ?_, ?_⟩
      · change Regex.marks? ('.' :: '*' :: (glob.flatMap inExpression ++ ['$'])) = _
        simp [Regex.marks?, Regex.plainMark, hmarks]
      · rw [Regex.ofMarks?, hread]
        rfl
    · by_cases hq : g = '?'
      · subst hq
        refine ⟨.any, .atom r :: ms, ?_, hatom .any⟩
        change Regex.marks? ('.' :: (glob.flatMap inExpression ++ ['$'])) = _
        simp [Regex.marks?, Regex.plainMark, hmarks]
      · refine ⟨.char g, .atom r :: ms, ?_, ?_⟩
        · rw [inExpression, if_neg hs, if_neg hq, Regex.marks?_escape, hmarks]
          rfl
        · rw [hatom, regexFrom, regexFrom, List.foldr_cons, regexOf, if_neg hs, if_neg hq]

theorem ofText?_expression (glob : Text) :
    Regex.ofText? (expression glob) = some (.seq .start (regexFrom glob)) := by
  obtain ⟨r, ms, hmarks, hread⟩ := marks?_inExpression glob
  rw [Regex.ofText?, expression]
  have hstart : Regex.marks? ('^' :: (glob.flatMap inExpression ++ ['$'])) =
      some (.atom .start :: .atom r :: ms) := by
    simp [Regex.marks?, Regex.plainMark, hmarks]
  rw [hstart, Option.bind_some, Regex.ofMarks?_atom .start (by simp), hread]
  rfl

/-! ### What it matches -/

theorem spans_regexOf {g : Char} {before part after : Text} :
    Regex.Spans (regexOf g) before part after ↔ StandsOnLine g part := by
  unfold regexOf
  by_cases hs : g = '*'
  · subst hs
    rw [if_pos rfl, Regex.spans_star_any, standsOnLine_star]
  · rw [if_neg hs]
    by_cases hq : g = '?'
    · subst hq
      rw [if_pos rfl, Regex.spans_any, standsOnLine_mark]
    · rw [if_neg hq, Regex.spans_char, standsOnLine_char hs hq]

/-- Only what reaches to the end of the text is matched. -/
theorem spans_regexFrom {glob before part after : Text} :
    Regex.Spans (regexFrom glob) before part after ↔ after = [] ∧ IsCut StandsOnLine glob part := by
  induction glob generalizing before part with
  | nil =>
    rw [isCut_nil, regexFrom, List.foldr_nil, Regex.spans_seq]
    constructor
    · rintro ⟨s, t, rfl, hs, ⟨⟩⟩
      cases hs
      exact ⟨rfl, rfl⟩
    · rintro ⟨rfl, rfl⟩
      exact ⟨[], [], rfl, .stop, .empty⟩
  | cons g glob ih =>
    rw [regexFrom, List.foldr_cons, ← regexFrom, Regex.spans_seq, isCut_cons]
    simp only [ih, spans_regexOf]
    grind

theorem isMatch_regexFrom (glob name : Text) :
    (Regex.seq .start (regexFrom glob)).IsMatch name ↔ IsCut StandsOnLine glob name := by
  constructor
  · rintro ⟨before, part, after, rfl, h⟩
    obtain ⟨s, t, rfl, hs, ht⟩ := Regex.spans_seq.mp h
    cases hs
    obtain ⟨rfl, hcut⟩ := spans_regexFrom.mp ht
    simpa using hcut
  · intro h
    refine ⟨[], name, [], by simp, Regex.spans_seq.mpr ⟨[], name, rfl, .start, ?_⟩⟩
    exact spans_regexFrom.mpr ⟨rfl, h⟩

/-- The expression that is written for a pattern can be read, and matches exactly the names that the
pattern accepts: those that can be cut into one part for every character of the pattern, any run of
characters for a star, one character for a question mark, and for every other character itself,
where line feeds are only in parts for a line feed. -/
theorem expression_selects (glob name : Text) :
    (∃ r, Regex.ofText? (expression glob) = some r ∧
      (r.IsMatch name ↔ accepts glob name = true)) ∧
      (accepts glob name = true ↔ ∃ parts, List.Forall₂ (fun g part =>
        Stands g part ∧ ('\n' ∈ part → g = '\n')) glob parts ∧ parts.flatten = name) := by
  refine ⟨⟨_, ofText?_expression glob, ?_⟩, accepts_iff_isCut glob name⟩
  rw [isMatch_regexFrom, accepts_iff_isCut]

/-- A star leaves out a name with a line feed, although the name can be cut as the pattern says. -/
theorem star_misses_line_feed :
    ¬ ∀ glob name, ∃ r, Regex.ofText? (expression glob) = some r ∧
      (r.IsMatch name ↔ IsCut Stands glob name) := by
  intro h
  have hcut : IsCut Stands "*.json".toList "a\nb.json".toList :=
    ⟨["a\nb".toList, ['.'], ['j'], ['s'], ['o'], ['n']],
      .cons trivial (.cons rfl (.cons rfl (.cons rfl (.cons rfl (.cons rfl .nil))))), rfl⟩
  have hmiss : ¬ accepts "*.json".toList "a\nb.json".toList = true := by decide
  obtain ⟨r, hr, hmatch⟩ := h "*.json".toList "a\nb.json".toList
  rw [ofText?_expression] at hr
  cases hr
  exact hmiss ((accepts_iff_isCut _ _).mpr ((isMatch_regexFrom _ _).mp (hmatch.mpr hcut)))

end Glob
end MailMerge
