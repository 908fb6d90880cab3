import MailMerge.Proofs.PathShape
import MailMerge.Proofs.TokenJoining

/-!
# Tokens and their spellings

Each kind of token has a rule for its spelling. What the lexer takes from the front of a text is
spelled by its rule; and a text that is spelled by a rule is one token, also before a blank. So
tokens that are written with blanks between them are read back, each on its line. The only exception
is a path that is spelled like a reserved word or a truth value.
-/

namespace MailMerge.Token

/-! ### The rules -/

/-- A point and digits, or nothing. -/
def IsPlaces (t : Text) : Prop :=
  t = [] ∨ ∃ digits, Text.isNumeral digits = true ∧ t = '.' :: digits

/-- A power of ten, perhaps with a sign, or nothing. -/
def IsPower (t : Text) : Prop :=
  t = [] ∨ ∃ c s digits, (c = 'e' ∨ c = 'E') ∧ (s = [] ∨ s = ['+'] ∨ s = ['-']) ∧
    Text.isNumeral digits = true ∧ t = c :: (s ++ digits)

/-- Digits, perhaps with places after a point, perhaps with a power of ten. -/
inductive IsNumber : Text → Prop where
  | mk {whole places power : Text} (hw : Text.isNumeral whole = true) (hp : IsPlaces places)
      (he : IsPower power) : IsNumber (whole ++ (places ++ power))

/-- Characters of a string, with a backslash before any that is escaped. There are no line feeds. -/
inductive IsQuotedBody : Text → Prop where
  | nil : IsQuotedBody []
  | plain {c : Char} {r : Text} (hc : ¬ (c = '"' ∨ c = '\\' ∨ c = '\n')) (hr : IsQuotedBody r) :
      IsQuotedBody (c :: r)
  | escape {c : Char} {r : Text} (hc : c ≠ '\n') (hr : IsQuotedBody r) :
      IsQuotedBody ('\\' :: c :: r)

/-- A string between quotes. -/
inductive IsQuoted : Text → Prop where
  | mk {body : Text} (hb : IsQuotedBody body) : IsQuoted ('"' :: (body ++ ['"']))

/-- Whether the spelling of a token follows the rule of its kind. -/
def IsSpelled : Token → Prop
  | .number n => IsNumber n
  | .quoted q => IsQuoted q
  | .path p => Pattern.IsPath p
  | .bool _ | .keyword _ | .symbol _ => True

/-- Whether a text spells a truth value or a reserved word. -/
def IsReserved (t : Text) : Prop := (∃ b, t = Text.ofBool b) ∨ ∃ k : Keyword, t = k.spelling

/-- Whether a token is spelled by its rule, and no path is spelled like another token. -/
def WellSpelled (t : Token) : Prop := t.IsSpelled ∧ ∀ p, t = .path p → ¬ IsReserved p

/-- The token that the spelling of a token is by itself. -/
def alone : Token → Token
  | .path p => ofWord p []
  | t => t

/-! ### Reserved words -/

/-- A word is a path, a truth value or a reserved word. -/
theorem ofWord_cases (word r : Text) : ofWord word r = .path word ∨
    (∃ b, word = Text.ofBool b ∧ ofWord word r = .bool b) ∨
      ∃ k : Keyword, word = k.spelling ∧ ofWord word r = .keyword k := by
  unfold ofWord
  split
  · exact .inl rfl
  · split
    · next h => exact .inr (.inl ⟨true, h, rfl⟩)
    · split
      · next h => exact .inr (.inl ⟨false, h, rfl⟩)
      · split
        · next k hk =>
          have hspelling : k.spelling = word := by simpa using List.find?_some hk
          exact .inr (.inr ⟨k, hspelling.symm, rfl⟩)
        · exact .inl rfl

theorem ofWord_minus {r : Text} (h : r.head? = some '-') (word : Text) :
    ofWord word r = .path word :=
  if_pos h

/-- Without a minus sign behind it a reserved word is no path. -/
theorem ofWord_of_reserved {word r : Text} (h : IsReserved word) (hr : r.head? ≠ some '-')
    (p : Text) : ofWord word r ≠ .path p := by
  unfold ofWord
  rw [if_neg hr]
  rcases h with ⟨b, rfl⟩ | ⟨k, rfl⟩
  · cases b <;> exact fun h => nomatch h
  · cases k <;> exact fun h => nomatch h

theorem ofWord_of_not_reserved {word : Text} (h : ¬ IsReserved word) (r : Text) :
    ofWord word r = .path word := by
  rcases ofWord_cases word r with hw | ⟨b, hb, -⟩ | ⟨k, hk, -⟩
  · exact hw
  · exact absurd (.inl ⟨b, hb⟩) h
  · exact absurd (.inr ⟨k, hk⟩) h

theorem spelling_ofWord (word r : Text) : (ofWord word r).spelling = word := by
  rcases ofWord_cases word r with hw | ⟨b, rfl, hb⟩ | ⟨k, rfl, hk⟩
  · rw [hw]; rfl
  · rw [hb]; rfl
  · rw [hk]; rfl

theorem isSpelled_ofWord {word : Text} (h : Pattern.IsPath word) (r : Text) :
    (ofWord word r).IsSpelled := by
  rcases ofWord_cases word r with hw | ⟨b, -, hb⟩ | ⟨k, -, hk⟩
  · rw [hw]; exact h
  · rw [hb]; exact trivial
  · rw [hk]; exact trivial

/-- A token that is spelled by its rule is one by itself, unless it is a path that is spelled like a
reserved word. -/
theorem alone_eq_iff (t : Token) : t.alone = t ↔ ∀ p, t = .path p → ¬ IsReserved p := by
  constructor
  · rintro h p rfl hp
    exact ofWord_of_reserved hp (by simp) p h
  · intro h
    cases t with
    | path p => exact ofWord_of_not_reserved (h p rfl) []
    | _ => rfl

/-! ### A spelling is one token -/

theorem numeral_parts {t : Text} (h : Text.isNumeral t = true) :
    t.isEmpty = false ∧ t.all Char.isDigit = true := by
  simpa [Text.isNumeral] using h

theorem IsPower.takeWhile {t : Text} (h : IsPower t) : t.takeWhile Char.isDigit = [] := by
  rcases h with rfl | ⟨c, s, digits, rfl | rfl, -, -, rfl⟩ <;> rfl

theorem IsPlaces.takeWhile {f p : Text} (hf : IsPlaces f) (hp : IsPower p) :
    (f ++ p).takeWhile Char.isDigit = [] := by
  rcases hf with rfl | ⟨digits, -, rfl⟩
  · exact hp.takeWhile
  · rfl

theorem IsPlaces.fraction_append {f p : Text} (hf : IsPlaces f) (hp : IsPower p) :
    fraction (f ++ p) = (f, p) := by
  rcases hf with rfl | ⟨digits, hd, rfl⟩
  · rcases hp with rfl | ⟨c, s, digits, rfl | rfl, -, -, rfl⟩ <;> rfl
  · obtain ⟨hne, hall⟩ := numeral_parts hd
    rw [List.cons_append, fraction, Text.takeWhile_run hall hp.takeWhile,
      Text.dropWhile_run hall hp.takeWhile, hne]
    rfl

theorem sign_append {s digits : Text} (hs : s = [] ∨ s = ['+'] ∨ s = ['-'])
    (hd : digits.all Char.isDigit = true) : sign (s ++ digits) = (s, digits) := by
  rcases hs with rfl | rfl | rfl
  · rw [List.nil_append, sign]
    · rintro r rfl
      cases hd
    · rintro r rfl
      cases hd
  · rfl
  · rfl

theorem IsPower.power_eq {t : Text} (h : IsPower t) : power t = (t, []) := by
  rcases h with rfl | ⟨c, s, digits, hc, hs, hd, rfl⟩
  · rfl
  · obtain ⟨hne, hall⟩ := numeral_parts hd
    have htake := Text.takeWhile_run hall (rfl : ([] : Text).takeWhile Char.isDigit = [])
    have hdrop := Text.dropWhile_run hall (rfl : ([] : Text).takeWhile Char.isDigit = [])
    rw [List.append_nil] at htake hdrop
    rw [power, if_pos hc, sign_append hs hall]
    simp only [htake, hdrop, hne]
    rfl

theorem IsNumber.head {n : Text} (h : IsNumber n) : ∃ c r, n = c :: r ∧ c.isDigit = true := by
  obtain @⟨whole, places, ten, hw, -, -⟩ := h
  obtain ⟨hne, hall⟩ := numeral_parts hw
  cases whole with
  | nil => cases hne
  | cons c whole =>
    simp only [List.all_cons, Bool.and_eq_true] at hall
    exact ⟨c, _, rfl, hall.1⟩

theorem IsNumber.numberAt_eq {n : Text} (h : IsNumber n) : numberAt n = .token (.number n) [] := by
  obtain ⟨hw, hp, he⟩ := h
  have hall := (numeral_parts hw).2
  simp only [numberAt, Text.takeWhile_run hall (hp.takeWhile he),
    Text.dropWhile_run hall (hp.takeWhile he), hp.fraction_append he, he.power_eq,
    List.append_assoc]

theorem IsQuotedBody.quotedBody_eq {body : Text} (h : IsQuotedBody body) :
    quotedBody (body ++ ['"']) = (body, ['"']) := by
  induction h with
  | nil => rfl
  | @plain c r hc _ ih =>
    rw [List.cons_append, quotedBody, if_neg hc, ih]
    exact fun _ _ hb => absurd (.inr (.inl hb)) hc
  | escape hc _ ih => rw [List.cons_append, List.cons_append, quotedBody, if_neg hc, ih]

theorem step_property {mark name rest : Text} (hm : mark = ['-', '>'] ∨ mark = ['.'])
    (hn : isPlainName name = true) (hr : Pattern.isContinuation rest = true) :
    step (mark ++ (name ++ rest)) = .more (mark ++ name) rest := by
  have hname : name.isEmpty = false ∧ name.all isWordChar = true := by
    simpa [isPlainName] using hn
  have hstop := Pattern.takeWhile_of_isContinuation hr
  have hproperty : property mark (name ++ rest) = .more (mark ++ name) rest := by
    rw [property, Text.takeWhile_run hname.2 hstop, Text.dropWhile_run hname.2 hstop, hname.1]
    rfl
  rcases hm with rfl | rfl
  · exact hproperty
  · exact hproperty

theorem step_index {digits : Text} (hd : Text.isNumeral digits = true) (rest : Text) :
    step ('[' :: (digits ++ ']' :: rest)) = .more ('[' :: (digits ++ [']'])) rest := by
  obtain ⟨hne, hall⟩ := numeral_parts hd
  have hstop : (']' :: rest).takeWhile Char.isDigit = [] := rfl
  rw [step, Text.takeWhile_run hall hstop, Text.dropWhile_run hall hstop, hne]
  rfl

theorem steps_more {fuel : Nat} {t s rest : Text} (hs : step t = .more s rest)
    (hf : t.length ≤ fuel) (done : Text) :
    ∃ n, rest.length ≤ n ∧ steps fuel done t = steps n (done ++ s) rest := by
  have hlt := length_step hs
  obtain ⟨n, rfl⟩ : ∃ n, fuel = n + 1 := ⟨fuel - 1, by omega⟩
  exact ⟨n, by omega, by simp only [steps, hs]⟩

/-- The steps of a path are taken one after the other. -/
theorem steps_steps {r : Text} (h : Pattern.Steps r) (done : Text) {fuel : Nat}
    (hf : r.length ≤ fuel) : steps fuel done r = .token (ofWord (done ++ r) []) [] := by
  induction h generalizing done fuel with
  | nil => rw [steps_of_stop rfl, List.append_nil]
  | @property mark name rest hm hn hr ih =>
    obtain ⟨n, hle, hsteps⟩ := steps_more (step_property hm hn hr.isContinuation) hf done
    rw [hsteps, ih _ hle]
    simp
  | @index digits rest hd _ ih =>
    obtain ⟨n, hle, hsteps⟩ := steps_more (step_index hd rest) hf done
    rw [hsteps, ih _ hle]
    simp

theorem all_isWordChar {c : Char} {name : Text} (hc : isWordStart c = true)
    (hn : name.all isWordChar = true) : (c :: name).all isWordChar = true := by
  rw [List.all_cons, isWordChar_of_isWordStart hc, hn]
  rfl

theorem wordAt_path {p : Text} (h : Pattern.IsPath p) : wordAt p = .token (ofWord p []) [] := by
  obtain @⟨c, name, r, hc, hn, hs⟩ := h
  have hall := all_isWordChar hc hn
  have hstop := Pattern.takeWhile_of_isContinuation hs.isContinuation
  rw [wordAt, ← List.cons_append, Text.takeWhile_run hall hstop, Text.dropWhile_run hall hstop]
  exact steps_steps hs (c :: name) (by rw [List.length_append]; omega)

/-- Whether a character separates tokens without being one. -/
def isGap (c : Char) : Bool := isSpace c || c == '\n'

theorem separates_of_isGap {c : Char} (h : isGap c = true) : separates c = true := by
  simp only [isGap, Bool.or_eq_true] at h
  simp only [separates, Bool.or_eq_true]
  exact .inl (.inl (.inl h))

/-- A class of characters without those that separate tokens holds no blank. -/
theorem not_isGap {p : Char → Bool} (hp : ∀ {d}, separates d = true → p d = false) {c : Char}
    (h : p c = true) : isGap c = false := by
  cases hg : isGap c with
  | false => rfl
  | true =>
    rw [hp (separates_of_isGap hg)] at h
    cases h

theorem not_isDigit_of_isWordStart {c : Char} (h : isWordStart c = true) : c.isDigit = false := by
  cases hd : c.isDigit with
  | false => rfl
  | true =>
    have hdigit : c.toNat ≤ 57 := of_decide_eq_true (Bool.and_eq_true_iff.mp hd).2
    simp only [isWordStart, Bool.or_eq_true, beq_iff_eq] at h
    rcases h with h | rfl
    · have hletter : c.isUpper = true ∨ c.isLower = true := Bool.or_eq_true_iff.mp h
      have hle : 65 ≤ c.toNat := by
        rcases hletter with h | h
        · exact (of_decide_eq_true h).1
        · have h97 : 97 ≤ c.toNat := of_decide_eq_true (Bool.and_eq_true_iff.mp h).1
          omega
      omega
    · exact absurd hdigit (by decide)

/-- A text that is spelled by the rule of a token is that token. -/
theorem front_spelling {t : Token} (h : t.IsSpelled) :
    ∃ c r, t.spelling = c :: r ∧ isGap c = false ∧ front c r = .token t.alone [] := by
  cases t with
  | number n =>
    have heq := h.numberAt_eq
    obtain ⟨c, r, rfl, hc⟩ := h.head
    refine ⟨c, r, rfl, not_isGap isDigit_of_separates hc, ?_⟩
    rw [front, if_pos hc]
    exact heq
  | quoted q =>
    obtain @⟨body, hb⟩ := h
    refine ⟨'"', _, rfl, rfl, ?_⟩
    have hfront : front '"' (body ++ ['"']) = quotedAt (body ++ ['"']) := rfl
    rw [hfront, quotedAt, hb.quotedBody_eq]
    rfl
  | path p =>
    have heq := wordAt_path h
    obtain ⟨hc, hn, hs⟩ := h
    refine ⟨_, _, rfl, not_isGap isWordChar_of_separates (isWordChar_of_isWordStart hc), ?_⟩
    rw [front, if_neg, if_pos hc]
    · exact heq
    · rw [not_isDigit_of_isWordStart hc]
      exact Bool.false_ne_true
  | bool b => cases b <;> exact ⟨_, _, rfl, rfl, rfl⟩
  | keyword k => cases k <;> exact ⟨_, _, rfl, rfl, rfl⟩
  | symbol m => cases m <;> exact ⟨_, _, rfl, rfl, rfl⟩

/-! ### A token is spelled by its rule -/

theorem isPlaces_fraction (t : Text) :
    t = (fraction t).1 ++ (fraction t).2 ∧ IsPlaces (fraction t).1 := by
  fun_cases fraction t with
  | case1 r he => exact ⟨rfl, .inl rfl⟩
  | case2 r he =>
    refine ⟨?_, .inr ⟨_, ?_, rfl⟩⟩
    · rw [List.cons_append, List.takeWhile_append_dropWhile]
    · simp [Text.isNumeral, he]
  | case3 t hne => exact ⟨rfl, .inl rfl⟩

theorem sign_cases (t : Text) :
    t = (sign t).1 ++ (sign t).2 ∧ ((sign t).1 = [] ∨ (sign t).1 = ['+'] ∨ (sign t).1 = ['-']) := by
  fun_cases sign t with
  | case1 r => exact ⟨rfl, .inr (.inl rfl)⟩
  | case2 r => exact ⟨rfl, .inr (.inr rfl)⟩
  | case3 t _ _ => exact ⟨rfl, .inl rfl⟩

theorem isPower_power (t : Text) : t = (power t).1 ++ (power t).2 ∧ IsPower (power t).1 := by
  cases t with
  | nil => exact ⟨rfl, .inl rfl⟩
  | cons c t =>
    obtain ⟨happend, hs⟩ := sign_cases t
    by_cases hc : c = 'e' ∨ c = 'E'
    · simp only [power, if_pos hc]
      split
      · exact ⟨rfl, .inl rfl⟩
      · next he =>
        refine ⟨?_, .inr ⟨c, _, _, hc, hs, ?_, rfl⟩⟩
        · rw [List.cons_append, List.append_assoc, List.takeWhile_append_dropWhile, ← happend]
        · simp [Text.isNumeral, he]
    · rw [power, if_neg hc]
      exact ⟨rfl, .inl rfl⟩

theorem isNumber_of_numberAt {c : Char} {r rest : Text} {t : Token} (hc : c.isDigit = true)
    (h : numberAt (c :: r) = .token t rest) :
    c :: r = t.spelling ++ rest ∧ t.IsSpelled := by
  simp only [numberAt] at h
  cases h
  obtain ⟨hplaces, hp⟩ := isPlaces_fraction ((c :: r).dropWhile Char.isDigit)
  obtain ⟨hpower, he⟩ := isPower_power (fraction ((c :: r).dropWhile Char.isDigit)).2
  constructor
  · rw [spelling, List.append_assoc, List.append_assoc, ← hpower, ← hplaces,
      List.takeWhile_append_dropWhile]
  · have hw : Text.isNumeral ((c :: r).takeWhile Char.isDigit) = true := by
      simp [Text.isNumeral, hc]
    have hnumber := IsNumber.mk hw hp he
    rwa [← List.append_assoc] at hnumber

theorem isQuotedBody_quotedBody {t s rest : Text} (h : quotedBody t = (s, rest)) :
    t = s ++ rest ∧ IsQuotedBody s := by
  fun_induction quotedBody t generalizing s with
  | case1 => cases h; exact ⟨rfl, .nil⟩
  | case2 t => cases h; exact ⟨rfl, .nil⟩
  | case3 c t hc u v hu ih =>
    cases h
    obtain ⟨rfl, hb⟩ := ih hu
    exact ⟨rfl, .escape hc hb⟩
  | case4 c t hne hc => cases h; exact ⟨rfl, .nil⟩
  | case5 c t hne hc u v hu ih =>
    cases h
    obtain ⟨rfl, hb⟩ := ih hu
    exact ⟨rfl, .plain hc hb⟩

theorem append_of_symbol? {t rest : Text} {m : Symbol} (h : symbol? t = some (m, rest)) :
    t = m.spelling ++ rest := by
  unfold symbol? at h
  split at h <;> cases h <;> rfl

/-- A word at the front of a text is a path, a truth value or a reserved word. -/
theorem front_word {c : Char} {r rest : Text} {t : Token} (hc : isWordStart c = true)
    (h : front c r = .token t rest) :
    ∃ word, c :: r = word ++ rest ∧ Pattern.IsPath word ∧ t = ofWord word rest := by
  rw [front, not_isDigit_of_isWordStart hc, if_neg Bool.false_ne_true, if_pos hc, wordAt,
    List.takeWhile_cons, List.dropWhile_cons, isWordChar_of_isWordStart hc] at h
  obtain ⟨s, hs, hsteps, rfl⟩ := steps_token h
  refine ⟨_, ?_, .mk hc (by simp) hsteps, rfl⟩
  simp only [if_true] at hs
  rw [List.cons_append, List.append_assoc, ← hs, List.takeWhile_append_dropWhile]

/-- What is no word at the front of a text is spelled by its rule. -/
theorem front_other {c : Char} {r rest : Text} {t : Token} (hc : isWordStart c = false)
    (h : front c r = .token t rest) : c :: r = t.spelling ++ rest ∧ t.IsSpelled := by
  unfold front at h
  rw [hc, if_neg Bool.false_ne_true] at h
  split at h
  · next hd => exact isNumber_of_numberAt hd h
  · split at h
    · next hq =>
      unfold quotedAt at h
      split at h
      · next s rest' hb =>
        cases h
        obtain ⟨rfl, hbody⟩ := isQuotedBody_quotedBody hb
        rw [hq]
        exact ⟨by simp [spelling], .mk hbody⟩
      · cases h
    · split at h
      · next m rest' hm =>
        cases h
        exact ⟨append_of_symbol? hm, trivial⟩
      · cases h

/-! ### Spellings and line feeds -/

theorem lineFeeds_of_all {p : Char → Bool} (hp : p '\n' = false) {t : Text} (h : t.all p = true) :
    t.lineFeeds = 0 := by
  refine List.count_eq_zero_of_not_mem fun hm => ?_
  rw [List.all_eq_true.mp h _ hm] at hp
  cases hp

theorem lineFeeds_steps {r : Text} (h : Pattern.Steps r) : r.lineFeeds = 0 := by
  induction h with
  | nil => rfl
  | @property mark name rest hm hn _ ih =>
    have hmark : mark.lineFeeds = 0 := by rcases hm with rfl | rfl <;> rfl
    simp only [isPlainName, Bool.and_eq_true] at hn
    rw [Text.lineFeeds_append, Text.lineFeeds_append, hmark, lineFeeds_of_all rfl hn.2, ih]
  | @index digits rest hd _ ih =>
    rw [Text.lineFeeds_cons_of_ne (by decide), Text.lineFeeds_append,
      lineFeeds_of_all rfl (numeral_parts hd).2, Text.lineFeeds_cons_of_ne (by decide), ih]

theorem lineFeeds_number {n : Text} (h : IsNumber n) : n.lineFeeds = 0 := by
  obtain @⟨whole, places, ten, hw, hp, he⟩ := h
  have hplaces : places.lineFeeds = 0 := by
    rcases hp with rfl | ⟨digits, hd, rfl⟩
    · rfl
    · rw [Text.lineFeeds_cons_of_ne (by decide), lineFeeds_of_all rfl (numeral_parts hd).2]
  have hten : ten.lineFeeds = 0 := by
    rcases he with rfl | ⟨c, s, digits, hc, hs, hd, rfl⟩
    · rfl
    · have hcn : c ≠ '\n' := by rcases hc with rfl | rfl <;> decide
      have hsn : Text.lineFeeds s = 0 := by rcases hs with rfl | rfl | rfl <;> rfl
      rw [Text.lineFeeds_cons_of_ne hcn, Text.lineFeeds_append, hsn,
        lineFeeds_of_all rfl (numeral_parts hd).2]
  rw [Text.lineFeeds_append, Text.lineFeeds_append, lineFeeds_of_all rfl (numeral_parts hw).2,
    hplaces, hten]

theorem lineFeeds_quotedBody {body : Text} (h : IsQuotedBody body) : body.lineFeeds = 0 := by
  induction h with
  | nil => rfl
  | plain hc _ ih => rw [Text.lineFeeds_cons_of_ne (fun h => hc (.inr (.inr h))), ih]
  | escape hc _ ih =>
    rw [Text.lineFeeds_cons_of_ne (by decide), Text.lineFeeds_cons_of_ne hc, ih]

/-- No token holds a line feed. -/
theorem lineFeeds_spelling {t : Token} (h : t.IsSpelled) : t.spelling.lineFeeds = 0 := by
  cases t with
  | number n => exact lineFeeds_number h
  | quoted q =>
    obtain @⟨body, hb⟩ := h
    rw [spelling, Text.lineFeeds_cons_of_ne (by decide), Text.lineFeeds_append,
      lineFeeds_quotedBody hb]
    rfl
  | path p =>
    obtain @⟨c, name, r, hc, hn, hs⟩ := h
    rw [spelling, ← List.cons_append, Text.lineFeeds_append,
      lineFeeds_of_all rfl (all_isWordChar hc hn), lineFeeds_steps hs]
  | bool b => cases b <;> rfl
  | keyword k => cases k <;> rfl
  | symbol m => cases m <;> rfl

/-! ### Tokens with blanks between them -/

/-- Tokens, each with the gap before it, and the gap behind the last one as a text. -/
def written : List (Text × Token) → Text → Text
  | [], last => last
  | (gap, t) :: r, last => gap ++ (t.spelling ++ written r last)

/-- The tokens, each on `line` and as many lines further as there are line feeds before it. -/
def placed : Nat → List (Text × Token) → List Located
  | _, [] => []
  | line, (gap, t) :: r =>
    ⟨t, line + gap.lineFeeds⟩ :: placed (line + Text.lineFeeds (gap ++ t.spelling)) r

/-- Gaps of blanks, at least one of them between two tokens. -/
structure Apart (gts : List (Text × Token)) (last : Text) : Prop where
  gaps : ∀ g ∈ gts, g.1.all isGap = true
  ending : last.all isGap = true
  between : ∀ g ∈ gts.tail, g.1 ≠ []

theorem map_token_placed (line : Nat) (gts : List (Text × Token)) :
    (placed line gts).map Located.token = gts.map Prod.snd := by
  induction gts generalizing line with
  | nil => rfl
  | cons g r ih => exact congrArg (g.2 :: ·) (ih _)

theorem lex_gap {c : Char} (hc : isGap c = true) (r : Text) (line : Nat) :
    lex (c :: r) line = lex r (line + Text.lineFeeds [c]) := by
  by_cases hn : c = '\n'
  · rw [hn]
    rfl
  · have hs : isSpace c = true := by simpa [isGap, hn] using hc
    rw [Text.lineFeeds_cons_of_ne hn, lex, List.length_cons, lexFrom, if_neg hn, if_pos hs]
    rfl

theorem lex_gaps {gap : Text} (hg : gap.all isGap = true) (r : Text) (line : Nat) :
    lex (gap ++ r) line = lex r (line + gap.lineFeeds) := by
  induction gap generalizing line with
  | nil => rfl
  | cons c gap ih =>
    simp only [List.all_cons, Bool.and_eq_true] at hg
    rw [List.cons_append, lex_gap hg.1, ih hg.2, Nat.add_assoc, ← Text.lineFeeds_append]
    rfl

/-- A spelling that a blank or the end follows is one token. -/
theorem lex_spelling {t : Token} (ht : t.IsSpelled) {rest : Text} {us : List Located} {line : Nat}
    (hsep : ∀ d ∈ rest.head?, isGap d = true) (hr : lex rest line = .ok us) :
    lex (t.spelling ++ rest) line = .ok (⟨t.alone, line⟩ :: us) := by
  obtain ⟨c, r, hspelling, hc, hfront⟩ := front_spelling ht
  have hbefore : front c (r ++ rest) = .token t.alone rest := by
    cases rest with
    | nil => rwa [List.append_nil]
    | cons d rest => exact front_before (separates_of_isGap (hsep d rfl)) rest hfront
  have hfuel : lexFrom (r ++ rest).length line rest = .ok us := by
    rw [List.length_append, Nat.add_comm]
    exact lexFrom_mono hr r.length
  simp only [isGap, Bool.or_eq_false_iff, beq_eq_false_iff_ne] at hc
  rw [hspelling, List.cons_append, lex, List.length_cons, lexFrom, if_neg hc.2, hc.1,
    if_neg Bool.false_ne_true, hbefore]
  simp only [hfuel]
  rfl

namespace Cuts

variable {text : Text} {ts : List Token}

/-- A token that is spelled by its rule, and like no other token. -/
theorem of_wellSpelled {t : Token} (h : t.WellSpelled) : Cuts t.spelling [t] := by
  have hlex : lex (t.spelling ++ []) 1 = .ok [⟨t.alone, 1⟩] := lex_spelling h.1 nofun rfl
  rw [List.append_nil, (alone_eq_iff t).mpr h.2] at hlex
  exact ⟨_, hlex, rfl⟩

theorem gap {r : Text} (hr : r.all isGap = true) : Cuts r [] := by
  have hlex := lex_gaps hr [] 1
  rw [List.append_nil] at hlex
  exact ⟨[], hlex, rfl⟩

/-- Blanks around a text change nothing. -/
theorem padded (h : Cuts text ts) {before after : Text} (hb : before.all isGap = true)
    (ha : after.all isGap = true) : Cuts (before ++ (text ++ after)) ts := by
  have hbehind : Cuts (text ++ after) ts := by
    cases after with
    | nil => rwa [List.append_nil]
    | cons d r =>
      have hd : isGap d = true := List.all_eq_true.mp ha d List.mem_cons_self
      simpa using h.append (separates_of_isGap hd) (gap ha)
  obtain ⟨us, hu, hts⟩ := hbehind.on_line (1 + before.lineFeeds)
  exact ⟨us, by rw [lex_gaps hb, hu], hts⟩

end Cuts

theorem Apart.tail {g : Text × Token} {gts : List (Text × Token)} {last : Text}
    (h : Apart (g :: gts) last) : Apart gts last where
  gaps x hx := h.gaps x (List.mem_cons_of_mem _ hx)
  ending := h.ending
  between x hx := h.between x (List.mem_of_mem_tail hx)

/-- What follows a token begins with a blank, if it is not at its end. -/
theorem Apart.head {g : Text × Token} {gts : List (Text × Token)} {last : Text}
    (h : Apart (g :: gts) last) : ∀ d ∈ (written gts last).head?, isGap d = true := by
  intro d hd
  cases gts with
  | nil => exact List.all_eq_true.mp h.ending d (List.mem_of_mem_head? hd)
  | cons x gts =>
    obtain ⟨c, gap, hgap⟩ := List.exists_cons_of_ne_nil (h.between x List.mem_cons_self)
    have hall := h.gaps x (List.mem_cons_of_mem _ List.mem_cons_self)
    rw [hgap, List.all_cons, Bool.and_eq_true] at hall
    rw [written, hgap, List.cons_append, List.head?_cons, Option.mem_some_iff] at hd
    rw [← hd]
    exact hall.1

/-- Spellings with blanks between them are read as the tokens that they are by themselves. -/
theorem lex_written_alone {gts : List (Text × Token)} {last : Text} (h : Apart gts last)
    (ht : ∀ g ∈ gts, g.2.IsSpelled) (line : Nat) : lex (written gts last) line =
      .ok ((placed line gts).map fun t => ⟨t.token.alone, t.line⟩) := by
  induction gts generalizing line with
  | nil =>
    have hlex := lex_gaps h.ending [] line
    rw [List.append_nil] at hlex
    exact hlex
  | cons g gts ih =>
    obtain ⟨gap, t⟩ := g
    have hspelled : t.IsSpelled := ht (gap, t) List.mem_cons_self
    have hrest := ih h.tail (fun g hg => ht g (List.mem_cons_of_mem _ hg)) (line + gap.lineFeeds)
    rw [written, lex_gaps (h.gaps (gap, t) List.mem_cons_self), lex_spelling hspelled h.head hrest,
      placed, Text.lineFeeds_append, lineFeeds_spelling hspelled]
    rfl

/-- Tokens that are spelled by their rules, none of them a path that is spelled like a reserved word
or a truth value, are read back from any text in which blanks stand between them. Each one is on the
line that the line feeds before it tell. -/
theorem lex_written {gts : List (Text × Token)} {last : Text} (h : Apart gts last)
    (ht : ∀ g ∈ gts, g.2.WellSpelled) (line : Nat) :
    lex (written gts last) line = .ok (placed line gts) := by
  have hid : ∀ t ∈ placed line gts, (⟨t.token.alone, t.line⟩ : Located) = t := by
    intro t hmem
    have hsnd : t.token ∈ gts.map Prod.snd := by
      rw [← map_token_placed line]
      exact List.mem_map_of_mem hmem
    obtain ⟨g, hg, hgt⟩ := List.mem_map.mp hsnd
    rw [← hgt, (alone_eq_iff g.2).mpr (ht g hg).2, hgt]
  rw [lex_written_alone h (fun g hg => (ht g hg).1), List.map_congr_left hid, List.map_id']

/-- A condition over three lines: a path with an index, a power of ten and an escaped quote. -/
theorem lex_three_lines :
    let gts : List (Text × Token) :=
      [("\n ".toList, .keyword .if_), (" ".toList, .path "a->b[0].c".toList),
        ("\t\n".toList, .symbol .lessEqual), (" ".toList, .number "1.5e-3".toList),
        (" \r\n".toList, .keyword .or_), (" ".toList, .quoted "\"x\\\"\"".toList)]
    (Apart gts " ".toList ∧ ∀ g ∈ gts, g.2.WellSpelled) ∧
      lex "\n if a->b[0].c\t\n<= 1.5e-3 \r\nor \"x\\\"\" ".toList 3 =
        .ok [⟨.keyword .if_, 4⟩, ⟨.path "a->b[0].c".toList, 4⟩, ⟨.symbol .lessEqual, 5⟩,
          ⟨.number "1.5e-3".toList, 5⟩, ⟨.keyword .or_, 6⟩, ⟨.quoted "\"x\\\"\"".toList, 6⟩] := by
  intro gts
  have hapart : Apart gts " ".toList := ⟨by decide, by decide, by decide⟩
  have hpath : Pattern.IsPath "a->b[0].c".toList :=
    .mk rfl (rfl : ([] : Text).all isWordChar = true) (.property (.inl rfl)
      (rfl : isPlainName ['b'] = true) (.index (rfl : Text.isNumeral ['0'] = true)
        (.property (.inr rfl) (rfl : isPlainName ['c'] = true) .nil)))
  have hnumber : IsNumber "1.5e-3".toList :=
    .mk (rfl : Text.isNumeral ['1'] = true) (.inr ⟨['5'], rfl, rfl⟩)
      (.inr ⟨'e', ['-'], ['3'], .inl rfl, .inr (.inr rfl), rfl, rfl⟩)
  have hquoted : IsQuoted "\"x\\\"\"".toList :=
    .mk (.plain (by decide) (.escape (by decide) .nil))
  have hspelled : ∀ g ∈ gts, g.2.WellSpelled := by
    have hother : ∀ {t : Token}, t.IsSpelled → t.alone = t → t.WellSpelled :=
      fun h ha => ⟨h, (alone_eq_iff _).mp ha⟩
    simp only [gts, List.forall_mem_cons]
    exact ⟨hother trivial rfl, hother hpath rfl, hother trivial rfl, hother hnumber rfl,
      hother trivial rfl, hother hquoted rfl, fun _ h => nomatch h⟩
  exact ⟨⟨hapart, hspelled⟩, lex_written hapart hspelled 3⟩

end MailMerge.Token
