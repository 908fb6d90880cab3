import MailMerge.Pattern
import MailMerge.Token.Lexer

/-!
The shape of access patterns. A path token is a plain name followed by steps, each a property after
an arrow or a point or an index in brackets. Its first segment is that name, and what follows the
name `item` in a path is found exactly if `item` is its first segment.
-/

namespace MailMerge

namespace Pattern

/-- What may follow the first name of a path. -/
inductive Steps : Text → Prop where
  | nil : Steps []
  | property {mark name rest : Text} (hm : mark = ['-', '>'] ∨ mark = ['.'])
      (hn : Token.isPlainName name = true) (hr : Steps rest) : Steps (mark ++ (name ++ rest))
  | index {digits rest : Text} (hd : Text.isNumeral digits = true) (hr : Steps rest) :
      Steps ('[' :: (digits ++ ']' :: rest))

/-- A name that begins with a letter or an underscore, and steps after it. -/
inductive IsPath : Text → Prop where
  | mk {c : Char} {name steps : Text} (hc : Token.isWordStart c = true)
      (hn : name.all Token.isWordChar = true) (hs : Steps steps) : IsPath (c :: (name ++ steps))

theorem Steps.append {s t : Text} (hs : Steps s) (ht : Steps t) : Steps (s ++ t) := by
  induction hs with
  | nil => exact ht
  | property hm hn _ ih => simpa only [List.append_assoc] using Steps.property hm hn ih
  | index hd _ ih =>
    simpa only [List.append_assoc, List.cons_append] using Steps.index hd ih

end Pattern

/-! ### What the lexer takes for a path -/

namespace Token

theorem isWordChar_of_isWordStart {c : Char} (h : isWordStart c = true) : isWordChar c = true := by
  simp only [isWordStart, isWordChar, Char.isAlphanum, Bool.or_eq_true] at h ⊢
  rcases h with h | h
  · exact .inl (.inl h)
  · exact .inr h

theorem isPlainName_takeWhile {t : Text} (h : (t.takeWhile isWordChar).isEmpty = false) :
    isPlainName (t.takeWhile isWordChar) = true := by
  simp [isPlainName, h]

theorem property_more {mark t s rest : Text} (h : property mark t = .more s rest) :
    mark ++ t = s ++ rest ∧ ∃ name, isPlainName name = true ∧ s = mark ++ name := by
  unfold property at h
  split at h
  · cases h
  · next he =>
    cases h
    refine ⟨?_, _, isPlainName_takeWhile (by simpa using he), rfl⟩
    rw [List.append_assoc, List.takeWhile_append_dropWhile]

/-- One step of a path is a property or an index at the front of what is left. -/
theorem steps_of_step {r s rest : Text} (h : step r = .more s rest) :
    r = s ++ rest ∧ Pattern.Steps s := by
  unfold step at h
  split at h
  · obtain ⟨happend, name, hn, rfl⟩ := property_more h
    exact ⟨happend, by simpa using Pattern.Steps.property (.inl rfl) hn .nil⟩
  · obtain ⟨happend, name, hn, rfl⟩ := property_more h
    exact ⟨happend, by simpa using Pattern.Steps.property (.inr rfl) hn .nil⟩
  · next r =>
    split at h
    · cases h
    · next he =>
      split at h
      · next hrest =>
        cases h
        refine ⟨?_, Pattern.Steps.index ?_ .nil⟩
        · rw [List.cons_append, List.append_assoc, List.singleton_append, ← hrest,
            List.takeWhile_append_dropWhile]
        · simp [Text.isNumeral, he]
      · cases h
  · cases h

/-- The steps that a path takes come after what it has so far. -/
theorem steps_token {fuel : Nat} {done r rest : Text} {t : Token}
    (h : steps fuel done r = .token t rest) :
    ∃ s, r = s ++ rest ∧ Pattern.Steps s ∧ t = ofWord (done ++ s) rest := by
  induction fuel generalizing done r with
  | zero =>
    cases h
    exact ⟨[], rfl, .nil, by rw [List.append_nil]⟩
  | succ fuel ih =>
    unfold steps at h
    split at h
    · next s' r' hs =>
      obtain ⟨s, rfl, hs', rfl⟩ := ih h
      obtain ⟨rfl, hstep⟩ := steps_of_step hs
      exact ⟨s' ++ s, (List.append_assoc ..).symm, hstep.append hs', by rw [List.append_assoc]⟩
    · cases h
    · cases h
      exact ⟨[], rfl, .nil, by rw [List.append_nil]⟩

theorem ofWord_path {word rest p : Text} (h : ofWord word rest = .path p) : word = p := by
  unfold ofWord at h
  split at h
  · cases h; rfl
  · split at h
    · cases h
    · split at h
      · cases h
      · split at h
        · cases h
        · cases h; rfl

theorem isPath_of_wordAt {c : Char} {r rest p : Text} (hc : isWordStart c = true)
    (h : wordAt (c :: r) = .token (.path p) rest) : Pattern.IsPath p := by
  obtain ⟨s, -, hs, ht⟩ := steps_token h
  rw [← ofWord_path ht.symm, List.takeWhile_cons, if_pos (isWordChar_of_isWordStart hc)]
  exact .mk hc (by simp) hs

theorem isPath_of_front {c : Char} {r rest p : Text} (h : front c r = .token (.path p) rest) :
    Pattern.IsPath p := by
  unfold front at h
  split at h
  · simp [numberAt] at h
  · split at h
    · next hc => exact isPath_of_wordAt hc h
    · split at h
      · unfold quotedAt at h
        split at h <;> cases h
      · split at h <;> cases h

theorem isPath_of_mem_lexFrom {fuel line : Nat} {text : Text} {ts : List Located}
    (h : lexFrom fuel line text = .ok ts) {t : Located} (ht : t ∈ ts) {p : Text}
    (hp : t.token = .path p) : Pattern.IsPath p := by
  induction fuel generalizing line text ts with
  | zero => cases text <;> cases h; cases ht
  | succ fuel ih =>
    cases text with
    | nil => cases h; cases ht
    | cons c r =>
      unfold lexFrom at h
      split at h
      · exact ih h ht
      · split at h
        · exact ih h ht
        · split at h
          · next u rest hf =>
            cases hr : lexFrom fuel line rest with
            | error e => rw [hr] at h; cases h
            | ok us =>
              rw [hr] at h
              cases h
              rcases List.mem_cons.mp ht with rfl | ht
              · cases hp; exact isPath_of_front hf
              · exact ih hr ht
          · cases h

/-- Every path token of a text is a path. -/
theorem isPath_of_mem_lex {text : Text} {line : Nat} {ts : List Located}
    (h : lex text line = .ok ts) {t : Located} (ht : t ∈ ts) {p : Text}
    (hp : t.token = .path p) : Pattern.IsPath p :=
  isPath_of_mem_lexFrom h ht hp

end Token

/-! ### Segments -/

namespace Pattern

theorem ne_of_isWordChar {c d : Char} (h : Token.isWordChar c = true)
    (hd : Token.isWordChar d = false) : c ≠ d := by
  rintro rfl
  rw [h] at hd
  cases hd

theorem isContinuation_iff {s : Text} : isContinuation s = true ↔
    s = [] ∨ (∃ r, s = '-' :: '>' :: r) ∨ (∃ r, s = '.' :: r) ∨ ∃ r, s = '[' :: r := by
  simp only [isContinuation, Bool.or_eq_true, List.isEmpty_iff, List.isPrefixOf_iff_prefix,
    List.IsPrefix, List.cons_append, List.nil_append, or_assoc, @eq_comm _ _ s]

theorem Steps.isContinuation {s : Text} (h : Steps s) : isContinuation s = true := by
  cases h with
  | nil => rfl
  | property hm _ _ => rcases hm with rfl | rfl <;> rfl
  | index _ _ => rfl

/-- A continuation does not begin with a character of a name. -/
theorem takeWhile_of_isContinuation {s : Text} (h : Pattern.isContinuation s = true) :
    s.takeWhile Token.isWordChar = [] := by
  rcases isContinuation_iff.mp h with rfl | ⟨r, rfl⟩ | ⟨r, rfl⟩ | ⟨r, rfl⟩ <;> rfl

theorem takeWhile_name {name s : Text} (hn : Token.isPlainName name = true)
    (hs : isContinuation s = true) : (name ++ s).takeWhile Token.isWordChar = name := by
  simp only [Token.isPlainName, Bool.and_eq_true] at hn
  exact Text.takeWhile_run hn.2 (takeWhile_of_isContinuation hs)

theorem flush_append (cur : Text) (a b : List Text) : flush cur a ++ b = flush cur (a ++ b) := by
  unfold flush
  split <;> rfl

theorem segmentsFrom_cons {c : Char} (h : Token.isWordChar c = true) (cur r : Text) :
    segmentsFrom cur (c :: r) = segmentsFrom (c :: cur) r := by
  rw [segmentsFrom]
  · rintro r' rfl; exact absurd rfl (ne_of_isWordChar h rfl)
  · exact ne_of_isWordChar h rfl
  · exact ne_of_isWordChar h rfl
  · exact ne_of_isWordChar h rfl

theorem segmentsFrom_name {name : Text} (h : name.all Token.isWordChar = true) (cur r : Text) :
    segmentsFrom cur (name ++ r) = segmentsFrom (name.reverse ++ cur) r := by
  induction name generalizing cur with
  | nil => rfl
  | cons c name ih =>
    simp only [List.all_cons, Bool.and_eq_true] at h
    rw [List.cons_append, segmentsFrom_cons h.1, ih h.2, List.reverse_cons, List.append_assoc]
    rfl

/-- A segment under way ends where a continuation begins. -/
theorem segmentsFrom_continuation {s : Text} (h : isContinuation s = true) (cur : Text) :
    segmentsFrom cur s = flush cur (segments s) := by
  rcases isContinuation_iff.mp h with rfl | ⟨r, rfl⟩ | ⟨r, rfl⟩ | ⟨r, rfl⟩ <;>
    simp [segments, segmentsFrom, flush]

/-- The segments of a pattern with a continuation after it. -/
theorem segmentsFrom_append {s : Text} (h : isContinuation s = true) (cur p : Text) :
    segmentsFrom cur (p ++ s) = segmentsFrom cur p ++ segments s := by
  fun_induction segmentsFrom cur p with
  | case1 cur => rw [List.nil_append, segmentsFrom_continuation h, flush_append, List.nil_append]
  | case2 cur r ih =>
    rw [List.cons_append, List.cons_append, segmentsFrom, ih, flush_append]
  | case3 cur r ih => rw [List.cons_append, segmentsFrom, ih, flush_append]
  | case4 cur r ih => rw [List.cons_append, segmentsFrom, ih, flush_append]
  | case5 cur r ih => rw [List.cons_append, segmentsFrom, ih, flush_append]
  | case6 cur c r h₁ h₂ h₃ h₄ ih =>
    rw [List.cons_append, segmentsFrom, ih]
    · -- an arrow cannot be cut in two, for no continuation begins with its head
      intro r' hc hr
      cases r with
      | nil =>
        rw [List.nil_append] at hr
        subst hr
        simp [isContinuation, List.isPrefixOf] at h
      | cons d r =>
        cases hr
        exact h₁ r hc rfl
    · exact h₂
    · exact h₃
    · exact h₄

theorem segments_append {s : Text} (h : isContinuation s = true) (p : Text) :
    segments (p ++ s) = segments p ++ segments s := segmentsFrom_append h [] p

theorem segments_name {name : Text} (h : Token.isPlainName name = true) :
    segments name = [name] := by
  simp only [Token.isPlainName, Bool.and_eq_true, Bool.not_eq_eq_eq_not, Bool.not_true] at h
  have := segmentsFrom_name h.2 [] []
  rw [List.append_nil, List.append_nil] at this
  rw [segments, this]
  simp [segmentsFrom, flush, h.1]

/-- A path falls into a plain name, which is its first segment, and steps. -/
theorem IsPath.split {p : Text} (h : IsPath p) : ∃ name steps, p = name ++ steps ∧
    Token.isPlainName name = true ∧ Steps steps ∧ segments p = name :: segments steps := by
  cases h with
  | @mk c name steps hc hn hs =>
    have hp : Token.isPlainName (c :: name) = true := by
      simp [Token.isPlainName, Token.isWordChar_of_isWordStart hc]
      simpa using hn
    refine ⟨c :: name, steps, rfl, hp, hs, ?_⟩
    rw [← List.cons_append, segments_append hs.isContinuation, segments_name hp]
    rfl

/-- What follows a plain name in a path: its steps, if the name is its first segment. -/
theorem afterItem?_name {name steps item : Text} (hn : Token.isPlainName name = true)
    (hs : isContinuation steps = true) (hi : Token.isPlainName item = true) :
    afterItem? (name ++ steps) item = if name = item then some steps else none := by
  unfold afterItem?
  split
  · next h =>
    subst h
    rw [Text.after?_append, Option.filter_some, if_pos hs]
  · next h =>
    cases ha : Text.after? item (name ++ steps) with
    | none => rfl
    | some rest =>
      have he := Text.eq_append_of_after? ha
      rw [Option.filter_some]
      cases hr : isContinuation rest with
      | false => rfl
      | true => exact absurd (by rw [← takeWhile_name hn hs, he, takeWhile_name hi hr]) h

/-- No continuation begins with a plain name. -/
theorem ne_name_append {s name : Text} (hs : isContinuation s = true)
    (hn : Token.isPlainName name = true) (r : Text) : s ≠ name ++ r := by
  rintro rfl
  have ht := takeWhile_of_isContinuation hs
  cases name with
  | nil => cases hn
  | cons c name =>
    simp only [Token.isPlainName, List.all_cons, Bool.and_eq_true] at hn
    rw [List.cons_append, List.takeWhile_cons, if_pos hn.2.1] at ht
    cases ht

theorem afterItem?_continuation {s item : Text} (hs : isContinuation s = true)
    (hi : Token.isPlainName item = true) : afterItem? s item = none := by
  unfold afterItem?
  cases ha : Text.after? item s with
  | none => rfl
  | some rest => exact absurd (Text.eq_append_of_after? ha) (ne_name_append hs hi rest)

/-- An access pattern as it stands in an expression. -/
def IsWritten (p : Text) : Prop :=
  ∃ (text : Text) (line : Nat) (ts : List Located), Token.lex text line = .ok ts ∧
    ∃ t ∈ ts, t.token = .path p

theorem IsWritten.isPath {p : Text} (h : IsWritten p) : IsPath p := by
  obtain ⟨text, line, ts, hl, t, ht, hp⟩ := h
  exact Token.isPath_of_mem_lex hl ht hp

end Pattern
end MailMerge
