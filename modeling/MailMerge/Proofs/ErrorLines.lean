import MailMerge.Proofs.ErrorPlaces

/-!
# The lines of errors

Every error about a template carries a line of the block that is to blame: the one of the place in
the block that it is about. So it is never before the first character and never behind the last one,
and errors about how blocks stand inside each other are on the first line of theirs.
-/

namespace MailMerge

theorem Text.all_isBlank_of_trim {t : Text} (h : t.trim = []) : ∀ c ∈ t, isBlank c = true := by
  have hd : t.dropWhile isBlank = [] := by
    by_contra hne
    have hlast := List.dropWhile_eq_nil_iff.1 (List.reverse_eq_nil_iff.1 h)
    obtain ⟨c, r, hr⟩ := List.exists_cons_of_ne_nil hne
    have hc := hlast c (by rw [hr]; simp)
    have hhead := List.head_dropWhile_not isBlank hne
    simp only [hr, List.head_cons, hc] at hhead
    cases hhead
  exact List.dropWhile_eq_nil_iff.1 hd

/-! ### Errors of a block -/

/-- An error fits the block that starts on line `line` with the text `text`. -/
structure TemplateError.Fits (text : Text) (line : Nat) (e : TemplateError) : Prop where
  /-- Its line is not before that of the first character. -/
  first : line ≤ e.line
  /-- Its line is not behind that of the last character. -/
  last : e.line ≤ line + Text.lineFeeds text.dropLast
  /-- An error about how blocks stand inside each other is on the first line. -/
  nesting : e.cause.isNesting = true → e.line = line
  /-- It shows something, but for a block of blanks. -/
  shown : e.cause.text? = some [] → ∀ c ∈ text, isBlank c = true

namespace TemplateError

variable {text front : Text} {c : Cause}

/-- An error about a place in a block fits it. -/
theorem Cause.PointsAt.fits (h : c.PointsAt text front) (line : Nat) :
    Fits text line ⟨c, line + front.lineFeeds⟩ where
  first := Nat.le_add_right line _
  last := by
    rcases h.place with rfl | ⟨s, hs, rest, rfl⟩
    · exact Nat.add_le_add_left (Nat.zero_le _) line
    · rw [List.append_assoc,
        List.dropLast_append_of_ne_nil (List.append_ne_nil_of_left_ne_nil hs rest),
        Text.lineFeeds_append]
      exact Nat.add_le_add_left (Nat.le_add_right _ _) line
  nesting hc := by
    cases h with
    | token _ _ hn _ _ =>
      rw [Cause.isNesting_of_namesToken hn] at hc
      cases hc
    | unmatched | unclosed | duplicate => rfl
    | characters _ | parenthesis _ _ | ending _ _ => cases hc
  shown hc := by
    cases h with
    | characters h => exact absurd (Option.some.inj hc) h.slice.1
    | token h _ _ hs hi =>
      rw [hs] at hc
      rw [Option.some.inj hc] at hi
      exact absurd (List.infix_nil.1 hi) h.spelling.1
    | unmatched kw => cases kw <;> cases hc
    | parenthesis _ _ | ending _ _ | unclosed =>
      exact Text.all_isBlank_of_trim (Option.some.inj hc)
    | duplicate => cases hc

end TemplateError

namespace Template

/-- The error fits any block that is to blame for it. -/
theorem fits_of_blamed {before after : List Block} {k : Block} {e : TemplateError}
    (h : (Builder.start.run (before ++ k :: after) >>= Builder.finish) = .error e)
    (hb : Blamed before k after) : k.isExpression = true ∧ e.Fits k.text k.line := by
  obtain ⟨hexpr, front, hpoints, hline⟩ := pointsAt_of_blamed h hb
  obtain ⟨c, n⟩ := e
  cases hline
  exact ⟨hexpr, hpoints.fits k.line⟩

end Template

/-! ### Errors of a template -/

namespace Block

theorem not_isExpression_of_mem_literal {line : Nat} {t : Text} {k : Block}
    (h : k ∈ literal line t) : k.isExpression = false := by
  unfold literal at h
  split at h
  · cases h
  · rw [List.mem_singleton.1 h]

/-- Expressions are not empty. -/
theorem text_ne_nil_of_ofPairs {line : Nat} {r : List Text} {ks : List Block}
    (h : ofPairs line r = .ok ks) : ∀ k ∈ ks, k.isExpression = true → k.text ≠ [] := by
  fun_induction ofPairs line r generalizing ks with
  | case1 line =>
    cases h
    exact fun k hk => absurd hk List.not_mem_nil
  | case2 line e => cases h
  | case3 line e t r after =>
    rename_i ih
    obtain ⟨rest, hrest, h⟩ := Parsing.ok_of_bind h
    cases h
    intro k hk hexpr
    rcases List.mem_cons.1 hk with rfl | hk
    · unfold between at hexpr ⊢
      split
      · exact List.cons_ne_nil _ _
      · next he => exact fun hnil => he (List.isEmpty_iff.2 hnil)
    · rcases List.mem_append.1 hk with hk | hk
      · rw [not_isExpression_of_mem_literal hk] at hexpr
        cases hexpr
      · exact ih hrest k hk hexpr

theorem text_ne_nil_of_split {source : Text} {ks : List Block} (h : split source = .ok ks) :
    ∀ k ∈ ks, k.isExpression = true → k.text ≠ [] := by
  unfold split at h
  split at h
  · cases h
    exact fun k hk => absurd hk List.not_mem_nil
  · obtain ⟨rest, hrest, rfl⟩ := Parsing.ok_of_map h
    intro k hk hexpr
    rcases List.mem_append.1 hk with hk | hk
    · rw [not_isExpression_of_mem_literal hk] at hexpr
      cases hexpr
    · exact text_ne_nil_of_ofPairs hrest k hk hexpr

end Block

namespace Template

/-- Where a source that is cut into blocks is no template, one of them is to blame: the first one
with which they begin no template, or the innermost one that is left open. It is an expression, and
the line of the error is one of those from its first character to its last one, which are counted
from 1; so line 0 is never given. It is the first of them if blocks do not stand well inside each
other, and the error shows an empty text only for a block of blanks. -/
theorem parse_error_located {source : Text} {ks : List Block} {e : TemplateError}
    (hs : Block.split source = .ok ks) (h : parse source = .error e) :
    (∃ before k after, ks = before ++ k :: after ∧ Blamed before k after) ∧
      ∀ before k after, ks = before ++ k :: after → Blamed before k after →
        k.isExpression = true ∧ k.text ≠ [] ∧
        source = before.flatMap Block.source ++
          marker :: (k.text ++ marker :: after.flatMap Block.source) ∧
        e.Fits k.text (1 + Text.lineFeeds (before.flatMap Block.source ++ [marker])) := by
  have hrun : (Builder.start.run ks >>= Builder.finish) = .error e := by
    rw [parse, hs] at h
    exact h
  refine ⟨exists_blamed hrun, ?_⟩
  rintro before k after rfl hb
  obtain ⟨hexpr, hfits⟩ := fits_of_blamed hrun hb
  obtain ⟨hsource, hline⟩ := (Block.cover_of_split hs).expression hexpr
  rw [hline] at hfits
  exact ⟨hexpr, Block.text_ne_nil_of_split hs k (by simp) hexpr, hsource, hfits⟩

/-- An unknown kind of data on the second line of a block inside another one. -/
theorem parse_error_unknown_kind :
    let source := "Hi\n$if a$\n$if x is\n list$\n$end$".toList
    let before : List Block := [⟨"Hi\n".toList, false, 1⟩, ⟨"if a".toList, true, 2⟩,
      ⟨['\n'], false, 2⟩]
    let k : Block := ⟨"if x is\n list".toList, true, 3⟩
    let after : List Block := [⟨['\n'], false, 4⟩, ⟨"end".toList, true, 5⟩]
    let e : TemplateError := ⟨.unknownKind "list".toList, 4⟩
    Block.split source = .ok (before ++ k :: after) ∧ parse source = .error e ∧
      Blamed before k after ∧
      source = before.flatMap Block.source ++
        marker :: (k.text ++ marker :: after.flatMap Block.source) ∧ e.Fits k.text 3 := by
  intro source before k after e
  have hs : Block.split source = .ok (before ++ k :: after) := rfl
  have h : parse source = .error e := rfl
  have hk : Piece.read k = .error e := rfl
  have hb : Blamed before k after := by
    refine .refused ?_ ?_
    · have hif := Balanced.if_ (.single (.access ['a'])) (.text ['\n'] .nil) .nil
      exact ⟨[.text "Hi\n".toList, .statement (.if_ (.single (.access ['a']))), .text ['\n']],
        [.statement .end_], _, rfl, .text "Hi\n".toList hif⟩
    · rintro ⟨ps, qs, o, hps, -⟩
      have hmem : Piece.read k ∈ ps.map .ok := by
        rw [← hps]
        exact List.mem_map_of_mem (by simp)
      obtain ⟨p, -, hp⟩ := List.mem_map.1 hmem
      rw [hk] at hp
      cases hp
  obtain ⟨-, -, hsource, hfits⟩ := (parse_error_located hs h).2 before k after rfl hb
  exact ⟨hs, h, hb, hsource, hfits⟩

end Template
end MailMerge
