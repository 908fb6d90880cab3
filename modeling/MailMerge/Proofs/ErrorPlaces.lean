import MailMerge.Proofs.BlockLines
import MailMerge.Proofs.OpenBlocks
import MailMerge.Proofs.TokenPlaces

/-!
# The places of errors

An error about a template is about a place in it: a token, an opening parenthesis, characters that
make up no token, a block as a whole, or the marker of an expression that is never closed. Its line
is the one on which that place is.
-/

namespace MailMerge

/-! ### Places in a block -/

namespace TemplateError

open Parsing (EndsEarly StopsAt)

/-- What a cause is about stands behind `front` in the text of its block. -/
inductive Cause.PointsAt (text : Text) : Text → Cause → Prop where
  /-- Characters that make up no token. -/
  | characters {front slice : Text} (h : Token.Stuck text front slice) :
      PointsAt text front (.invalidCharacter slice)
  /-- The token at which the parser has stopped, which is shown. -/
  | token {front shown : Text} {before after : List Token} {t : Token} {c : Cause}
      (h : Token.Stands text front before t after)
      (hstop : StopsAt Statement.ofTokens before t after c) (hc : c.namesToken = true)
      (hs : c.text? = some shown) (hi : t.spelling <:+: shown) : PointsAt text front c
  /-- The opening parenthesis at which the parser has stopped. -/
  | parenthesis {front : Text} {before after : List Token}
      (h : Token.Stands text front before (.symbol .openParen) after)
      (hstop : StopsAt Statement.ofTokens before (.symbol .openParen) after
        (.missingParenthesis [])) :
      PointsAt text front (.missingParenthesis text.trim)
  /-- The block, since its tokens end too early. -/
  | ending {ts : List Token} (h : Token.Reaches [] text ts)
      (hend : EndsEarly Statement.ofTokens ts) : PointsAt text [] (.unexpectedEnd text.trim)
  /-- The block, since it belongs to none that is open. -/
  | unmatched (word : Keyword) : PointsAt text [] (.unmatchedBlock word.spelling)
  /-- The block, since it is left open. -/
  | unclosed : PointsAt text [] (.unclosedBlock text.trim)
  /-- The block, since it is one `else` too many. -/
  | duplicate : PointsAt text [] .duplicateElse

variable {text front : Text} {c : Cause} {line : Nat}

/-- The place is the beginning of the block, or something in it begins there. -/
theorem Cause.PointsAt.place (h : c.PointsAt text front) :
    front = [] ∨ ∃ s, s ≠ [] ∧ front ++ s <+: text := by
  cases h with
  | characters h => exact .inr ⟨_, h.slice⟩
  | token h _ _ _ _ => exact .inr ⟨_, h.spelling⟩
  | parenthesis h _ => exact .inr ⟨_, h.spelling⟩
  | ending _ _ | unmatched | unclosed | duplicate => exact .inl rfl

theorem Cause.PointsAt.isPrefix (h : c.PointsAt text front) : front <+: text := by
  rcases h.place with rfl | ⟨s, -, hs⟩
  · exact List.nil_prefix
  · exact (List.prefix_append _ _).trans hs

/-- A cause that shows something is complete. -/
theorem inBlock_of_shown {shown : Text} (hc : c.text? = some shown) (hne : shown ≠ [])
    (block : Text) : c.inBlock block = c := by
  unfold Cause.inBlock
  split
  · exact absurd (Option.some.inj hc).symm hne
  · exact absurd (Option.some.inj hc).symm hne
  · rfl

/-- A line that is known is kept. -/
theorem line_inBlock_add (c : Cause) (n : Nat) :
    ((⟨c, line + n⟩ : TemplateError).inBlock text line).line = line + n := by
  simp only [inBlock]
  split <;> omega

/-- What the parser says about the token at which it has stopped is about the place of this token in
the block. -/
theorem pointsAt_of_stopsAt {before after : List Token} {t : Token} (hc : c.Blames t)
    (hstop : StopsAt Statement.ofTokens before t after c)
    (h : Token.Stands text front before t after) :
    ((⟨c, line + front.lineFeeds⟩ : TemplateError).inBlock text line).cause.PointsAt text
      front := by
  cases hc with
  | parenthesis ht =>
    subst ht
    exact .parenthesis h hstop
  | @token _ shown hname hs hi =>
    have hshown : shown ≠ [] := fun hnil => h.spelling.1 (List.infix_nil.1 (hnil ▸ hi))
    rw [show ((⟨c, line + front.lineFeeds⟩ : TemplateError).inBlock text line).cause = c from
      inBlock_of_shown hs hshown text]
    exact .token h hstop hname hs hi

end TemplateError

/-- An error in reading a block is about a place in it. -/
theorem Statement.pointsAt_of_parse {text : Text} {line : Nat} {e : TemplateError}
    (h : parse text line = .error e) :
    ∃ front, e.cause.PointsAt text front ∧ e.line = line + front.lineFeeds := by
  unfold parse at h
  have hlex := Token.found_lex text line
  generalize Token.lex text line = r at h hlex
  cases hlex with
  | error hs hn =>
    cases h
    exact ⟨_, .characters hs, hn⟩
  | @ok ts hreach hplaces =>
    change inBlock text line (ofTokens ts) = .error e at h
    rcases ofTokens_steady (ts.map Located.token) with
      ⟨s, hok⟩ | hend | ⟨before, t, after, c, hts, hc, hstop⟩
    · rw [hok ts rfl] at h
      cases h
    · rw [hend ts rfl] at h
      cases h
      exact ⟨[], .ending hreach hend, rfl⟩
    · obtain ⟨us, n, vs, rfl, rfl, rfl, hread⟩ := hstop.exists_line hts
      obtain ⟨front, hstands, rfl⟩ := hplaces us _ vs rfl
      rw [hread] at h
      cases h
      exact ⟨front, TemplateError.pointsAt_of_stopsAt hc hstop hstands,
        TemplateError.line_inBlock_add _ _⟩

namespace Template

theorem isExpression_of_read {k : Block} {s : Statement} (h : Piece.read k = .ok (.statement s)) :
    k.isExpression = true := by
  unfold Piece.read at h
  split at h
  · assumption
  · cases h

theorem pointsAt_of_read {k : Block} {e : TemplateError} (h : Piece.read k = .error e) :
    k.isExpression = true ∧
      ∃ front, e.cause.PointsAt k.text front ∧ e.line = k.line + front.lineFeeds := by
  unfold Piece.read at h
  split at h
  next hk =>
    cases hs : Statement.parse k.text k.line with
    | error e' =>
      rw [hs] at h
      cases h
      exact ⟨hk, Statement.pointsAt_of_parse hs⟩
    | ok s =>
      rw [hs] at h
      cases h
  next => cases h

namespace Builder

variable {b : Builder} {line : Nat} {e : TemplateError}

theorem pointsAt_of_turn (h : b.turn line = .error e) (text : Text) :
    e.cause.PointsAt text [] ∧ e.line = line := by
  unfold turn at h
  split at h
  · cases h
    exact ⟨.unmatched .else_, rfl⟩
  · split at h
    · cases h
    · cases h
      exact ⟨.duplicate, rfl⟩

theorem pointsAt_of_leave (h : b.leave line = .error e) (text : Text) :
    e.cause.PointsAt text [] ∧ e.line = line := by
  unfold leave at h
  split at h
  · cases h
    exact ⟨.unmatched .end_, rfl⟩
  · cases h

/-- An error in taking a block is about a place in it. -/
theorem pointsAt_of_step {k : Block} (h : b.step k = .error e) :
    k.isExpression = true ∧
      ∃ front, e.cause.PointsAt k.text front ∧ e.line = k.line + front.lineFeeds := by
  unfold step at h
  cases hk : Piece.read k with
  | error e' =>
    rw [hk] at h
    cases h
    exact pointsAt_of_read hk
  | ok p =>
    rw [hk] at h
    change b.take k p = .error e at h
    rcases p with t | (c | _ | _ | hd | el)
    · cases h
    · cases h
    · exact ⟨isExpression_of_read hk, [], pointsAt_of_turn h k.text⟩
    · exact ⟨isExpression_of_read hk, [], pointsAt_of_leave h k.text⟩
    · cases h
    · cases h

end Builder

/-- A block that is to blame for an error is an expression, and the error is about a place in
it. -/
theorem pointsAt_of_blamed {before after : List Block} {k : Block} {e : TemplateError}
    (h : (Builder.start.run (before ++ k :: after) >>= Builder.finish) = .error e)
    (hb : Blamed before k after) :
    k.isExpression = true ∧
      ∃ front, e.cause.PointsAt k.text front ∧ e.line = k.line + front.lineFeeds := by
  rcases error_of_blamed h hb with ⟨b, -, hs⟩ | ⟨rfl, s, hk⟩
  · exact Builder.pointsAt_of_step hs
  · exact ⟨isExpression_of_read hk, [], .unclosed, rfl⟩

end Template

/-! ### Places in a source -/

/-- Where an expression stands in a source. -/
theorem Block.Cover.expression {source : Text} {before after : List Block} {k : Block}
    (h : Cover source (before ++ k :: after)) (hk : k.isExpression = true) :
    source = before.flatMap Block.source ++
        marker :: (k.text ++ marker :: after.flatMap Block.source) ∧
      k.line = 1 + Text.lineFeeds (before.flatMap Block.source ++ [marker]) := by
  constructor
  · rw [← h.written, List.flatMap_append, List.flatMap_cons]
    rw [show k.source = marker :: (k.text ++ [marker]) from if_pos hk]
    simp
  · rw [h.numbered before k after rfl, Text.lineFeeds_append]
    rfl

namespace Template

/-- What an error about a source is about stands behind `front` in it. -/
inductive Reported (source : Text) (e : TemplateError) : Text → Prop where
  /-- The marker of an expression that is never closed. -/
  | unterminated {before after : Text} (h : source = before ++ marker :: after)
      (ha : marker ∉ after) (hc : e.cause = .unterminatedExpression after.trim) :
      Reported source e before
  /-- An expression that is to blame, or something in it. -/
  | inBlock {before after : List Block} {k : Block} {front : Text}
      (hs : Block.split source = .ok (before ++ k :: after)) (hb : Blamed before k after)
      (hk : k.isExpression = true) (hp : e.cause.PointsAt k.text front) :
      Reported source e (before.flatMap Block.source ++ marker :: front)

/-- An error is about a place in the source, and carries its line. -/
theorem reported_of_parse {source : Text} {e : TemplateError} (h : parse source = .error e) :
    ∃ front c back, source = front ++ c :: back ∧ Reported source e front ∧
      e.line = 1 + Text.lineFeeds front := by
  cases hs : Block.split source with
  | error e' =>
    have hodd : ¬ Even (source.count marker) := by
      rw [← Block.exists_split_iff, hs]
      rintro ⟨bs, hbs⟩
      cases hbs
    obtain ⟨before, after, hsource, ha, herror⟩ := Block.split_odd hodd
    rw [parse, hs] at h
    cases h
    rw [hs] at herror
    cases herror
    exact ⟨before, marker, after, hsource, .unterminated hsource ha rfl, rfl⟩
  | ok ks =>
    have hrun : (Builder.start.run ks >>= Builder.finish) = .error e := by
      rw [parse, hs] at h
      exact h
    obtain ⟨before, k, after, rfl, hb⟩ := exists_blamed hrun
    obtain ⟨hexpr, front, hpoints, hline⟩ := pointsAt_of_blamed hrun hb
    obtain ⟨hsource, hfirst⟩ := (Block.cover_of_split hs).expression hexpr
    obtain ⟨rest, hrest⟩ := hpoints.isPrefix
    -- at least the marker that closes the block follows
    obtain ⟨c, back, hback⟩ := List.exists_cons_of_ne_nil
      (List.append_ne_nil_of_right_ne_nil rest
        (List.cons_ne_nil marker (after.flatMap Block.source)))
    refine ⟨_, c, back, ?_, .inBlock hs hb hexpr hpoints, ?_⟩
    · rw [hsource, ← hback, ← hrest]
      simp
    · rw [hline, hfirst, Nat.add_assoc, ← Text.lineFeeds_append, List.append_assoc]
      rfl

end Template
end MailMerge
