import MailMerge.Proofs.TokenSpelling

/-!
# Blanks between tokens

A text that is cut into tokens consists of their spellings and blanks between some of them. Written
with a space between every two, the tokens are the same, but for those that are read as paths only
since a minus sign follows: a reserved word or a truth value is a path exactly where it stands right
before one.
-/

namespace MailMerge.Token

/-! ### The slices of a text -/

/-- A text from a line on, as the spellings of its tokens and gaps of blanks. -/
structure Slices (line : Nat) (text : Text) (ts : List Located) (gts : List (Text × Token))
    (last : Text) : Prop where
  text_eq : text = written gts last
  tokens_eq : ts = placed line gts
  gaps : ∀ g ∈ gts, g.1.all isGap = true
  ending : last.all isGap = true
  spelled : ∀ g ∈ gts, g.2.IsSpelled
  /-- A reserved word is a path exactly if a minus sign follows at once. -/
  reserved : ∀ front gap t back, gts = front ++ (gap, t) :: back → IsReserved t.spelling →
    ((∃ p, t = .path p) ↔ (written back last).head? = some '-')

/-- Reserved words begin like words. -/
theorem IsReserved.head {c : Char} {r : Text} (h : IsReserved (c :: r)) : isWordStart c = true := by
  rcases h with ⟨b, hb⟩ | ⟨k, hk⟩
  · cases b <;> cases hb <;> rfl
  · cases k <;> cases hk <;> rfl

/-- What the lexer takes from the front of a text. -/
theorem front_slice {c : Char} {r rest : Text} {t : Token} (h : front c r = .token t rest) :
    c :: r = t.spelling ++ rest ∧ t.IsSpelled ∧
      (IsReserved t.spelling → ((∃ p, t = .path p) ↔ rest.head? = some '-')) := by
  cases hc : isWordStart c with
  | true =>
    obtain ⟨word, happend, hpath, rfl⟩ := front_word hc h
    rw [spelling_ofWord]
    refine ⟨happend, isSpelled_ofWord hpath rest, fun hreserved => ?_⟩
    by_cases hminus : rest.head? = some '-'
    · exact ⟨fun _ => hminus, fun _ => ⟨word, ofWord_minus hminus word⟩⟩
    · exact ⟨fun ⟨p, hp⟩ => absurd hp (ofWord_of_reserved hreserved hminus p),
        fun h => absurd h hminus⟩
  | false =>
    obtain ⟨happend, hspelled⟩ := front_other hc h
    refine ⟨happend, hspelled, fun hreserved => ?_⟩
    obtain ⟨d, s, hspelling, -⟩ := front_spelling hspelled
    rw [hspelling] at happend hreserved
    cases happend
    rw [hreserved.head] at hc
    cases hc

namespace Slices

variable {line : Nat} {text : Text} {ts : List Located} {gts : List (Text × Token)} {last : Text}

theorem nil (line : Nat) : Slices line [] [] [] [] where
  text_eq := rfl
  tokens_eq := rfl
  gaps := by simp
  ending := rfl
  spelled := by simp
  reserved front gap t back h := by simp at h

/-- A blank goes to the gap in front of the first token. -/
theorem gap {c : Char} (hc : isGap c = true)
    (h : Slices (line + Text.lineFeeds [c]) text ts gts last) :
    ∃ gts' last', Slices line (c :: text) ts gts' last' := by
  cases gts with
  | nil =>
    refine ⟨[], c :: last, congrArg (c :: ·) h.text_eq, h.tokens_eq, h.gaps, ?_, h.spelled, ?_⟩
    · rw [List.all_cons, hc, h.ending]
      rfl
    · intro front gap t back he
      simp at he
  | cons g gts =>
    obtain ⟨gap, t⟩ := g
    have hfeeds : line + Text.lineFeeds [c] + gap.lineFeeds = line + Text.lineFeeds (c :: gap) := by
      rw [Nat.add_assoc, ← Text.lineFeeds_append]
      rfl
    refine ⟨(c :: gap, t) :: gts, last, congrArg (c :: ·) h.text_eq, ?_, ?_, h.ending, ?_, ?_⟩
    · have htokens := h.tokens_eq
      rw [placed, Text.lineFeeds_append, ← Nat.add_assoc, hfeeds] at htokens
      rw [htokens, placed, Text.lineFeeds_append, ← Nat.add_assoc]
    · have hgaps := h.gaps
      simp only [List.forall_mem_cons] at hgaps ⊢
      exact ⟨by rw [List.all_cons, hc, hgaps.1]; rfl, hgaps.2⟩
    · have hspelled := h.spelled
      simp only [List.forall_mem_cons] at hspelled ⊢
      exact hspelled
    · intro front gap' t' back he
      cases front with
      | nil =>
        cases he
        exact h.reserved [] gap t gts rfl
      | cons g front =>
        cases he
        exact h.reserved ((gap, t) :: front) gap' t' back rfl

/-- A token goes in front of all others. -/
theorem token {t : Token} (ht : t.IsSpelled)
    (hr : IsReserved t.spelling → ((∃ p, t = .path p) ↔ text.head? = some '-'))
    (h : Slices line text ts gts last) :
    Slices line (t.spelling ++ text) (⟨t, line⟩ :: ts) (([], t) :: gts) last where
  text_eq := by rw [written, ← h.text_eq]; rfl
  tokens_eq := by
    rw [placed, List.nil_append, lineFeeds_spelling ht, h.tokens_eq]
    rfl
  gaps := List.forall_mem_cons.mpr ⟨rfl, h.gaps⟩
  ending := h.ending
  spelled := List.forall_mem_cons.mpr ⟨ht, h.spelled⟩
  reserved front gap t' back he := by
    cases front with
    | nil =>
      cases he
      rw [← h.text_eq]
      exact hr
    | cons g front =>
      cases he
      exact h.reserved front gap t' back rfl

end Slices

/-- A text that is cut into tokens is made of their spellings and gaps. -/
theorem slices_of_lexFrom {fuel line : Nat} {text : Text} {ts : List Located}
    (h : lexFrom fuel line text = .ok ts) : ∃ gts last, Slices line text ts gts last := by
  induction fuel generalizing line text ts with
  | zero =>
    cases text with
    | nil => cases h; exact ⟨[], [], .nil line⟩
    | cons c r => cases h
  | succ fuel ih =>
    cases text with
    | nil => cases h; exact ⟨[], [], .nil line⟩
    | cons c r =>
      unfold lexFrom at h
      split at h
      · next hc =>
        subst hc
        obtain ⟨gts, last, hs⟩ := ih h
        exact hs.gap rfl
      · next hc =>
        split at h
        · next hspace =>
          obtain ⟨gts, last, hs⟩ := ih h
          have hfeeds : line = line + Text.lineFeeds [c] := by
            rw [Text.lineFeeds_cons_of_ne hc]
            rfl
          rw [hfeeds] at hs
          exact hs.gap (by simp [isGap, hspace])
        · split at h
          · next t rest hfront =>
            obtain ⟨us, hu, rfl⟩ := Parsing.ok_of_map h
            obtain ⟨gts, last, hs⟩ := ih hu
            obtain ⟨happend, hspelled, hreserved⟩ := front_slice hfront
            rw [happend]
            exact ⟨_, _, hs.token hspelled hreserved⟩
          · cases h

/-! ### A space between every two tokens -/

/-- The spellings of tokens with a space between every two. -/
def spaced (ts : List Located) : Text := Text.join [' '] (ts.map fun t => t.token.spelling)

/-- Tokens with a space before each one but the first. -/
def spacedGaps : List Token → List (Text × Token)
  | [] => []
  | t :: ts => ([], t) :: ts.map fun u => ([' '], u)

theorem written_spacedGaps (ts : List Token) :
    written (spacedGaps ts) [] = Text.join [' '] (ts.map spelling) := by
  cases ts with
  | nil => rfl
  | cons t ts =>
    rw [spacedGaps, written, List.nil_append]
    induction ts generalizing t with
    | nil => simp [written, Text.join]
    | cons u ts ih =>
      rw [List.map_cons, written, ih u, List.map_cons, List.map_cons, List.map_cons,
        Text.join_cons]
      rfl

theorem apart_spacedGaps (ts : List Token) : Apart (spacedGaps ts) [] where
  gaps := by cases ts <;> simp [spacedGaps, isGap, isSpace]
  ending := rfl
  between := by cases ts <;> simp [spacedGaps]

theorem mem_spacedGaps {ts : List Token} {g : Text × Token} (h : g ∈ spacedGaps ts) :
    g.1.lineFeeds = 0 ∧ g.2 ∈ ts := by
  cases ts with
  | nil => cases h
  | cons t ts =>
    rcases List.mem_cons.mp h with rfl | h
    · exact ⟨rfl, List.mem_cons_self⟩
    · obtain ⟨u, hu, rfl⟩ := List.mem_map.mp h
      exact ⟨rfl, List.mem_cons_of_mem _ hu⟩

theorem map_snd_spacedGaps (ts : List Token) : (spacedGaps ts).map Prod.snd = ts := by
  cases ts with
  | nil => rfl
  | cons t ts => simp [spacedGaps, Function.comp_def]

/-- Without line feeds between them all tokens are on one line. -/
theorem placed_on_line {gts : List (Text × Token)}
    (h : ∀ g ∈ gts, g.1.lineFeeds = 0 ∧ g.2.IsSpelled) (line : Nat) :
    placed line gts = (gts.map Prod.snd).map fun t => ⟨t, line⟩ := by
  induction gts with
  | nil => rfl
  | cons g gts ih =>
    obtain ⟨⟨hgap, hspelled⟩, h⟩ := List.forall_mem_cons.mp h
    simp only [placed, Text.lineFeeds_append, hgap, lineFeeds_spelling hspelled, Nat.add_zero, ih h]
    rfl

/-- Spellings with a space between every two are read as the tokens that they are by themselves. -/
theorem lex_spaced_alone {ts : List Located} (h : ∀ t ∈ ts, t.token.IsSpelled) (line : Nat) :
    lex (spaced ts) line = .ok (ts.map fun t => ⟨t.token.alone, line⟩) := by
  have hspelled : ∀ t ∈ ts.map Located.token, t.IsSpelled := by
    intro t ht
    obtain ⟨u, hu, rfl⟩ := List.mem_map.mp ht
    exact h u hu
  have hgaps : ∀ g ∈ spacedGaps (ts.map Located.token), g.1.lineFeeds = 0 ∧ g.2.IsSpelled :=
    fun g hg => ⟨(mem_spacedGaps hg).1, hspelled _ (mem_spacedGaps hg).2⟩
  have hlex := lex_written_alone (apart_spacedGaps (ts.map Located.token))
    (fun g hg => (hgaps g hg).2) line
  rw [written_spacedGaps, placed_on_line hgaps, map_snd_spacedGaps, List.map_map, List.map_map,
    List.map_map] at hlex
  exact hlex

/-- A text that is cut into tokens is made of their spellings with blanks between some of them.
Written with a space between every two they are cut into the same tokens, but for the paths among
them that are spelled like a reserved word or a truth value, which are read as what they spell; and
a text with such a spelling is read as a path exactly if a minus sign follows it at once. -/
theorem lex_spaced_iff {text : Text} {line : Nat} {ts : List Located}
    (h : lex text line = .ok ts) :
    (∃ gts last, Slices line text ts gts last) ∧
      (∀ l, lex (spaced ts) l = .ok (ts.map fun t => ⟨t.token.alone, l⟩)) ∧
      ((∀ l, ∃ us, lex (spaced ts) l = .ok us ∧ SameTokens ts us) ↔
        ∀ t ∈ ts, ∀ p, t.token = .path p → ¬ IsReserved p) := by
  obtain ⟨gts, last, hs⟩ := slices_of_lexFrom h
  have hspelled : ∀ t ∈ ts, t.token.IsSpelled := by
    intro t ht
    have hmem : t.token ∈ gts.map Prod.snd := by
      rw [← map_token_placed line, ← hs.tokens_eq]
      exact List.mem_map_of_mem ht
    obtain ⟨g, hg, hgt⟩ := List.mem_map.mp hmem
    rw [← hgt]
    exact hs.spelled g hg
  have hlex := lex_spaced_alone hspelled
  have hsame : (∀ t ∈ ts, ∀ p, t.token = .path p → ¬ IsReserved p) ↔
      ∀ l : Nat, SameTokens ts (ts.map fun t => ⟨t.token.alone, l⟩) := by
    simp only [SameTokens, List.map_map, List.map_inj_left, ← alone_eq_iff, Function.comp]
    exact ⟨fun h _ t ht => (h t ht).symm, fun h t ht => (h 0 t ht).symm⟩
  refine ⟨⟨gts, last, hs⟩, hlex, ?_⟩
  rw [hsame]
  constructor
  · intro h l
    obtain ⟨us, hus, hl⟩ := h l
    rw [hlex l] at hus
    cases hus
    exact hl
  · intro h l
    exact ⟨_, hlex l, h l⟩

/-- A blank before the minus sign turns the path into the reserved word. -/
theorem lex_spaced_header :
    lex "for x in-xs".toList 2 = .ok [⟨.keyword .for_, 2⟩, ⟨.path "x".toList, 2⟩,
        ⟨.path "in".toList, 2⟩, ⟨.symbol .minus, 2⟩, ⟨.path "xs".toList, 2⟩] ∧
      lex "for x in - xs".toList 1 = .ok [⟨.keyword .for_, 1⟩, ⟨.path "x".toList, 1⟩,
        ⟨.keyword .in_, 1⟩, ⟨.symbol .minus, 1⟩, ⟨.path "xs".toList, 1⟩] := by
  have h : lex "for x in-xs".toList 2 = .ok [⟨.keyword .for_, 2⟩, ⟨.path "x".toList, 2⟩,
      ⟨.path "in".toList, 2⟩, ⟨.symbol .minus, 2⟩, ⟨.path "xs".toList, 2⟩] := rfl
  exact ⟨h, (lex_spaced_iff h).2.1 1⟩

/-- With a space after it the path `true` is a truth value. -/
theorem not_sameTokens_spaced : ¬ ∀ (text : Text) (line : Nat) (ts : List Located),
    lex text line = .ok ts → (∀ t ∈ ts, ∀ p, t.token = .path p → ¬ IsReserved p) ∧
      ∃ us, lex (spaced ts) line = .ok us ∧ SameTokens ts us := by
  intro h
  have hts : lex "true-1".toList 1 = .ok [⟨.path "true".toList, 1⟩, ⟨.symbol .minus, 1⟩,
      ⟨.number "1".toList, 1⟩] := rfl
  obtain ⟨-, us, hus, hsame⟩ := h _ _ _ hts
  have hspaced : lex "true - 1".toList 1 = .ok [⟨.bool true, 1⟩, ⟨.symbol .minus, 1⟩,
      ⟨.number "1".toList, 1⟩] := rfl
  rw [show spaced [⟨.path "true".toList, 1⟩, ⟨.symbol .minus, 1⟩, ⟨.number "1".toList, 1⟩] =
    "true - 1".toList from rfl, hspaced] at hus
  cases hus
  cases hsame

end MailMerge.Token
