import MailMerge.Proofs.TokenSpacing

/-!
# The places of tokens

Where the lexer is in a text when it has taken some tokens: behind their spellings and the blanks
before and between them. There it takes the next token, which stands in the text with its spelling
and on the line that it carries, or it finds characters that make up no token.
-/

namespace MailMerge.Token

/-! ### Places -/

/-- The lexer takes the tokens of a text, and blanks, and is left with `rest` behind it. -/
inductive Reaches (rest : Text) : Text → List Token → Prop where
  | here : Reaches rest [] []
  | blank {c : Char} {text : Text} {ts : List Token} (hc : isGap c = true)
      (h : Reaches rest text ts) : Reaches rest (c :: text) ts
  | token {c : Char} {s text : Text} {t : Token} {ts : List Token}
      (hs : c :: s = t.spelling ++ (text ++ rest)) (hf : front c s = .token t (text ++ rest))
      (h : Reaches rest text ts) : Reaches rest (t.spelling ++ text) (t :: ts)

/-- A text of tokens has one of them behind its part `text`, between those before and after it. -/
inductive Stands : Text → Text → List Token → Token → List Token → Prop where
  | intro {text back : Text} {before after : List Token} {t : Token}
      (hb : Reaches (t.spelling ++ back) text before)
      (ha : Reaches [] (t.spelling ++ back) (t :: after)) :
      Stands (text ++ (t.spelling ++ back)) text before t after

/-- Behind its part `text`, a text goes on with characters that make up no token. -/
inductive Stuck : Text → Text → Text → Prop where
  | intro {text s slice : Text} {c : Char} {before : List Token}
      (hb : Reaches (c :: s) text before) (hf : front c s = .invalid slice) :
      Stuck (text ++ c :: s) text slice

theorem Reaches.isSpelled {rest text : Text} {ts : List Token} (h : Reaches rest text ts) :
    ∀ t ∈ ts, t.IsSpelled := by
  induction h with
  | here => exact nofun
  | blank _ _ ih => exact ih
  | token _ hf _ ih => exact List.forall_mem_cons.mpr ⟨(front_slice hf).2.1, ih⟩

/-- The token is there. -/
theorem Stands.spelling {text front : Text} {before after : List Token} {t : Token}
    (h : Stands text front before t after) :
    t.spelling ≠ [] ∧ front ++ t.spelling <+: text := by
  cases h with
  | @intro _ back _ _ _ _ ha =>
    obtain ⟨c, s, hspelling, -⟩ := front_spelling (ha.isSpelled t List.mem_cons_self)
    rw [← List.append_assoc]
    exact ⟨hspelling ▸ List.cons_ne_nil c s, List.prefix_append _ back⟩

/-! ### Characters that make up no token -/

theorem broken_prefix {t s : Text} (h : step t = .broken s) : s ≠ [] ∧ s <+: t := by
  unfold step at h
  split at h
  · unfold property at h
    split at h <;> cases h
  · unfold property at h
    split at h <;> cases h
  · next r =>
    split at h
    · cases h
    · split at h
      · cases h
      · cases h
        exact ⟨List.cons_ne_nil _ _, (List.prefix_cons_inj '[').mpr (List.takeWhile_prefix _)⟩
  · cases h

theorem steps_invalid {fuel : Nat} {done t slice : Text} (h : steps fuel done t = .invalid slice) :
    slice ≠ [] ∧ slice <+: done ++ t := by
  induction fuel generalizing done t with
  | zero => cases h
  | succ fuel ih =>
    unfold steps at h
    split at h
    · next s rest hs =>
      obtain ⟨rfl, -⟩ := steps_of_step hs
      rw [← List.append_assoc]
      exact ih h
    · next s hs =>
      cases h
      obtain ⟨hne, hprefix⟩ := broken_prefix hs
      exact ⟨List.append_ne_nil_of_right_ne_nil _ hne,
        (List.prefix_append_right_inj done).mpr hprefix⟩
    · cases h

/-- What is shown is there, and is not empty. -/
theorem front_invalid {c : Char} {r slice : Text} (h : front c r = .invalid slice) :
    slice ≠ [] ∧ slice <+: c :: r := by
  unfold front at h
  split at h
  · cases h
  · split at h
    · have hslice := steps_invalid h
      rwa [List.takeWhile_append_dropWhile] at hslice
    · split at h
      · next hquote =>
        unfold quotedAt at h
        split at h
        · cases h
        · next s rest _ hbody =>
          cases h
          obtain ⟨rfl, -⟩ := isQuotedBody_quotedBody hbody
          rw [hquote]
          exact ⟨List.cons_ne_nil _ _, rest, rfl⟩
      · split at h
        · cases h
        · cases h
          exact ⟨List.cons_ne_nil _ _, r, rfl⟩

/-- Those characters are there. -/
theorem Stuck.slice {text before slice : Text} (h : Stuck text before slice) :
    slice ≠ [] ∧ before ++ slice <+: text := by
  cases h with
  | intro _ hf =>
    obtain ⟨hne, hprefix⟩ := front_invalid hf
    exact ⟨hne, (List.prefix_append_right_inj before).mpr hprefix⟩

/-! ### The whole text -/

section Front

variable {c : Char} {s text before slice rest : Text} {t u : Token} {ts us : List Token}

theorem Stands.blank (hc : isGap c = true) (h : Stands text before ts t us) :
    Stands (c :: text) (c :: before) ts t us := by
  cases h with
  | intro hb ha => exact .intro (.blank hc hb) ha

theorem Stuck.blank (hc : isGap c = true) (h : Stuck text before slice) :
    Stuck (c :: text) (c :: before) slice := by
  cases h with
  | intro hb hf => exact .intro (.blank hc hb) hf

/-- A token more in front. -/
theorem Stands.token (hs : c :: s = u.spelling ++ text) (hf : front c s = .token u text)
    (h : Stands text before ts t us) : Stands (c :: s) (u.spelling ++ before) (u :: ts) t us := by
  cases h with
  | intro hb ha =>
    rw [hs, ← List.append_assoc]
    exact .intro (.token hs hf hb) ha

theorem Stuck.token (hs : c :: s = u.spelling ++ text) (hf : front c s = .token u text)
    (h : Stuck text before slice) : Stuck (c :: s) (u.spelling ++ before) slice := by
  cases h with
  | intro hb hg =>
    rw [hs, ← List.append_assoc]
    exact .intro (.token hs hf hb) hg

end Front

/-- What the lexer gives for a text: tokens that stand in it, or some of its characters. -/
inductive Found (line : Nat) (text : Text) : Except TemplateError (List Located) → Prop where
  | ok {ts : List Located} (hr : Reaches [] text (ts.map Located.token))
      (h : ∀ us t vs, ts = us ++ t :: vs → ∃ before,
        Stands text before (us.map Located.token) t.token (vs.map Located.token) ∧
          t.line = line + before.lineFeeds) : Found line text (.ok ts)
  | error {before slice : Text} {n : Nat} (h : Stuck text before slice)
      (hn : n = line + before.lineFeeds) : Found line text (.error ⟨.invalidCharacter slice, n⟩)

namespace Found

variable {c : Char} {line : Nat} {s text : Text} {r : Except TemplateError (List Located)}

theorem blank (hc : isGap c = true) (h : Found (line + Text.lineFeeds [c]) text r) :
    Found line (c :: text) r := by
  have hfeeds : ∀ before : Text, line + Text.lineFeeds [c] + before.lineFeeds =
      line + Text.lineFeeds (c :: before) := fun before => by
    rw [Nat.add_assoc, ← Text.lineFeeds_append]
    rfl
  cases h with
  | ok hr h =>
    refine .ok (.blank hc hr) fun us t vs hts => ?_
    obtain ⟨before, hstands, hline⟩ := h us t vs hts
    exact ⟨c :: before, hstands.blank hc, hline.trans (hfeeds before)⟩
  | error h hn => exact .error (h.blank hc) (hn.trans (hfeeds _))

/-- No token goes over the end of a line, so what follows it goes on with its line. -/
theorem token {t : Token} (hf : front c s = .token t text) (h : Found line text r) :
    Found line (c :: s) (r.map (⟨t, line⟩ :: ·)) := by
  obtain ⟨hs, hspelled, -⟩ := front_slice hf
  have hfeeds : ∀ before : Text,
      line + before.lineFeeds = line + Text.lineFeeds (t.spelling ++ before) := fun before => by
    rw [Text.lineFeeds_append, lineFeeds_spelling hspelled, Nat.zero_add]
  cases h with
  | @ok ts hr h =>
    have hreach : Reaches [] (c :: s) (t :: ts.map Located.token) := by
      rw [hs]
      exact .token (by rwa [List.append_nil]) (by rwa [List.append_nil]) hr
    refine .ok hreach fun us u vs hts => ?_
    cases us with
    | nil =>
      cases hts
      rw [hs] at hreach ⊢
      exact ⟨[], .intro .here hreach, rfl⟩
    | cons x us =>
      cases hts
      obtain ⟨before, hstands, hline⟩ := h us u vs rfl
      exact ⟨t.spelling ++ before, hstands.token hs hf, hline.trans (hfeeds before)⟩
  | error h hn => exact .error (h.token hs hf) (hn.trans (hfeeds _))

end Found

/-- What the lexer gives stands in the text, if it may take as many steps as there are
characters. -/
theorem found_lexFrom {fuel : Nat} : ∀ {line : Nat} {text : Text}, text.length ≤ fuel →
    Found line text (lexFrom fuel line text) := by
  have hnil : ∀ line, Found line [] (.ok []) := fun line => .ok .here fun us t vs h => by simp at h
  induction fuel with
  | zero =>
    intro line text h
    rw [List.length_eq_zero_iff.mp (Nat.le_zero.mp h)]
    exact hnil line
  | succ fuel ih =>
    intro line text h
    cases text with
    | nil => exact hnil line
    | cons c s =>
      have hlength : s.length ≤ fuel := Nat.le_of_succ_le_succ h
      unfold lexFrom
      split
      · next hc =>
        subst hc
        exact .blank rfl (ih hlength)
      · next hc =>
        split
        · next hspace =>
          refine .blank (by simp [isGap, hspace]) ?_
          rw [Text.lineFeeds_cons_of_ne hc]
          exact ih hlength
        · split
          · next t rest hf =>
            obtain ⟨hs, hspelled, -⟩ := front_slice hf
            obtain ⟨d, u, hspelling, -⟩ := front_spelling hspelled
            refine .token hf (ih ?_)
            have hl := congrArg List.length hs
            rw [hspelling] at hl
            simp only [List.length_cons, List.length_append] at hl
            omega
          · next slice hf => exact .error (.intro .here hf) rfl

/-- What the lexer gives stands in the text. -/
theorem found_lex (text : Text) (line : Nat) : Found line text (lex text line) :=
  found_lexFrom (Nat.le_refl _)

end MailMerge.Token
