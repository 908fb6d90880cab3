import MailMerge.Proofs.Relocation

/-!
# Texts cut into tokens, one after the other

A blank, a parenthesis or a comma belongs to no number, word or longer symbol. So what stands at the
front of a text is the same token if such a character follows the text, and a text before it is cut
into the tokens of the text and then those of what follows.
-/

namespace MailMerge.Token

/-- Whether a character ends every token before it: it is a blank, a parenthesis or a comma. -/
def separates (c : Char) : Bool := isSpace c || c == '\n' || c == '(' || c == ')' || c == ','

theorem separates_cases {d : Char} (h : separates d = true) :
    d ∈ [' ', '\t', '\r', '\x0c', '\n', '(', ')', ','] := by
  simpa [separates, isSpace, or_assoc] using h

/-- What no separating character is. -/
theorem not_of_separates {p : Char → Bool} {d : Char} (h : separates d = true)
    (hp : [' ', '\t', '\r', '\x0c', '\n', '(', ')', ','].all (fun c => !p c) = true) :
    p d = false := by
  simpa using List.all_eq_true.mp hp d (separates_cases h)

theorem isDigit_of_separates {d : Char} (h : separates d = true) : d.isDigit = false :=
  not_of_separates h rfl

theorem isWordChar_of_separates {d : Char} (h : separates d = true) : isWordChar d = false :=
  not_of_separates h rfl

theorem ne_of_separates {c d : Char} (h : separates d = true) (hc : separates c = false) :
    d ≠ c := by
  rintro rfl
  rw [h] at hc
  cases hc

/-! ### The front of a text -/

/-- A text that does not begin with a character that separates nothing does not begin with it if a
separating one follows, either. -/
theorem head_before {d : Char} (hd : separates d = true) (r : Text) {c : Char}
    (hc : separates c = false) {t : Text} (ht : ∀ u, t = c :: u → False) (u : Text)
    (h : t ++ d :: r = c :: u) : False := by
  cases t with
  | nil => exact ne_of_separates hd hc (List.cons.inj h).1
  | cons b t => exact ht t (congrArg (· :: t) (List.cons.inj h).1)

theorem takeWhile_before {p : Char → Bool} {d : Char} (hp : p d = false) (r t : Text) :
    (t ++ d :: r).takeWhile p = t.takeWhile p := by
  induction t with
  | nil => rw [List.nil_append, List.takeWhile_cons, hp]; rfl
  | cons c t ih => rw [List.cons_append, List.takeWhile_cons, List.takeWhile_cons, ih]

theorem dropWhile_before {p : Char → Bool} {d : Char} (hp : p d = false) (r t : Text) :
    (t ++ d :: r).dropWhile p = t.dropWhile p ++ d :: r := by
  induction t with
  | nil => rw [List.nil_append, List.dropWhile_cons, hp]; rfl
  | cons c t ih =>
    rw [List.cons_append, List.dropWhile_cons, List.dropWhile_cons, ih]
    split
    · rfl
    · rfl

/-- What a step of a path leaves, with more text behind it. -/
def Step.before (r : Text) : Step → Step
  | .more text rest => .more text (rest ++ r)
  | .broken text => .broken text
  | .stop => .stop

/-- What a token at the front of a text leaves, with more text behind it. -/
def Front.before (r : Text) : Front → Front
  | .token t rest => .token t (rest ++ r)
  | .invalid slice => .invalid slice

theorem length_step {s t u : Text} (h : step t = .more s u) : u.length < t.length := by
  have hproperty : ∀ {mark v : Text}, property mark v = .more s u → u.length ≤ v.length := by
    intro mark v hv
    unfold property at hv
    split at hv
    · cases hv
    · cases hv
      exact (List.dropWhile_suffix _).length_le
  unfold step at h
  split at h
  · next v => exact Nat.lt_succ_of_lt (Nat.lt_succ_of_le (hproperty h))
  · next v => exact Nat.lt_succ_of_le (hproperty h)
  · next v =>
    split at h
    · cases h
    · split at h
      · next rest hrest =>
        cases h
        have hsuffix : v.dropWhile Char.isDigit <:+ v := List.dropWhile_suffix _
        have hle := hsuffix.length_le
        rw [hrest] at hle
        exact Nat.lt_succ_of_lt hle
      · cases h
  · cases h

theorem steps_of_stop {t : Text} (h : step t = .stop) (fuel : Nat) (done : Text) :
    steps fuel done t = .token (ofWord done t) t := by
  cases fuel with
  | zero => rfl
  | succ fuel => simp only [steps, h]

section Before

variable {d : Char} (hd : separates d = true) (r : Text)
include hd

theorem fraction_before (t : Text) :
    fraction (t ++ d :: r) = ((fraction t).1, (fraction t).2 ++ d :: r) := by
  have hdigit := isDigit_of_separates hd
  fun_cases fraction t with
  | case1 u he =>
    rw [List.cons_append, fraction, takeWhile_before hdigit, if_pos he]
  | case2 u he =>
    rw [List.cons_append, fraction, takeWhile_before hdigit, if_neg he, dropWhile_before hdigit]
  | case3 t hne =>
    rw [fraction]
    exact head_before hd r rfl hne

theorem sign_before (t : Text) : sign (t ++ d :: r) = ((sign t).1, (sign t).2 ++ d :: r) := by
  fun_cases sign t with
  | case1 u => rfl
  | case2 u => rfl
  | case3 t hplus hminus =>
    rw [sign]
    · exact head_before hd r rfl hplus
    · exact head_before hd r rfl hminus

theorem power_before (t : Text) : power (t ++ d :: r) = ((power t).1, (power t).2 ++ d :: r) := by
  have hdigit := isDigit_of_separates hd
  cases t with
  | nil =>
    have he : ¬ (d = 'e' ∨ d = 'E') := by
      rintro (h | h)
      · exact ne_of_separates hd rfl h
      · exact ne_of_separates hd rfl h
    rw [List.nil_append, power, if_neg he]
    rfl
  | cons c t =>
    rw [List.cons_append, power, power, sign_before hd]
    by_cases hc : c = 'e' ∨ c = 'E'
    · simp only [if_pos hc, takeWhile_before hdigit, dropWhile_before hdigit]
      split
      · rfl
      · rfl
    · simp only [if_neg hc]
      rfl

theorem step_before (t : Text) : step (t ++ d :: r) = (step t).before (d :: r) := by
  have hword := isWordChar_of_separates hd
  have hdigit := isDigit_of_separates hd
  have hproperty : ∀ mark u : Text,
      property mark (u ++ d :: r) = (property mark u).before (d :: r) := by
    intro mark u
    rw [property, property, takeWhile_before hword, dropWhile_before hword]
    split
    · rfl
    · rfl
  fun_cases step t with
  | case1 u => exact hproperty _ u
  | case2 u => exact hproperty _ u
  | case3 u he =>
    rw [List.cons_append, step, takeWhile_before hdigit, if_pos he]
    rfl
  | case4 u he rest hrest =>
    rw [List.cons_append, step, takeWhile_before hdigit, if_neg he, dropWhile_before hdigit, hrest]
    rfl
  | case5 u he hrest =>
    rw [List.cons_append, step, takeWhile_before hdigit, if_neg he, dropWhile_before hdigit]
    split
    · next rest h => exact absurd h (head_before hd r rfl hrest rest)
    · rfl
  | case6 t harrow hpoint hindex =>
    rw [step]
    · rfl
    · intro u hu
      cases t with
      | nil => exact ne_of_separates hd rfl (List.cons.inj hu).1
      | cons c t =>
        obtain ⟨rfl, htail⟩ := List.cons.inj hu
        exact head_before hd r rfl (fun v hv => harrow v (congrArg _ hv)) u htail
    · exact head_before hd r rfl hpoint
    · exact head_before hd r rfl hindex

theorem ofWord_before (word t : Text) : ofWord word (t ++ d :: r) = ofWord word t := by
  have hhead : (t ++ d :: r).head? = some '-' ↔ t.head? = some '-' := by
    cases t with
    | nil => simp [ne_of_separates hd (c := '-') rfl]
    | cons c t => rfl
  simp only [ofWord, hhead]

/-- A path goes on as far as before. -/
theorem steps_before {fuel fuel' : Nat} {done t rest : Text} {k : Token}
    (h : steps fuel done t = .token k rest) (hf : t.length ≤ fuel) (hf' : t.length ≤ fuel') :
    steps fuel' done (t ++ d :: r) = .token k (rest ++ d :: r) := by
  have hstop : ∀ {done t : Text}, step t = .stop → ∀ fuel fuel' : Nat,
      steps fuel done t = .token k rest →
        steps fuel' done (t ++ d :: r) = .token k (rest ++ d :: r) := by
    intro done t hs fuel fuel' h
    have hnext := step_before hd r t
    rw [hs] at hnext
    rw [steps_of_stop hs] at h
    cases h
    rw [steps_of_stop hnext, ofWord_before hd]
  induction fuel generalizing fuel' done t with
  | zero =>
    obtain rfl := List.length_eq_zero_iff.mp (Nat.le_zero.mp hf)
    exact hstop rfl 0 fuel' h
  | succ fuel ih =>
    have hnext := step_before hd r t
    cases hs : step t with
    | more s u =>
      have hu := length_step hs
      obtain ⟨n, rfl⟩ : ∃ n, fuel' = n + 1 := ⟨fuel' - 1, by omega⟩
      rw [hs] at hnext
      simp only [steps, hs] at h
      simp only [steps, hnext, Step.before]
      exact ih h (by omega) (by omega)
    | broken s =>
      simp only [steps, hs] at h
      cases h
    | stop => exact hstop hs (fuel + 1) fuel' h

theorem numberAt_before (t : Text) : numberAt (t ++ d :: r) = (numberAt t).before (d :: r) := by
  have hdigit := isDigit_of_separates hd
  simp only [numberAt, Front.before, takeWhile_before hdigit, dropWhile_before hdigit,
    fraction_before hd, power_before hd]

theorem wordAt_before {t rest : Text} {k : Token} (h : wordAt t = .token k rest) :
    wordAt (t ++ d :: r) = .token k (rest ++ d :: r) := by
  have hword := isWordChar_of_separates hd
  have hle : (t.dropWhile isWordChar).length ≤ t.length := (List.dropWhile_suffix _).length_le
  rw [wordAt, takeWhile_before hword, dropWhile_before hword]
  refine steps_before hd r h hle (Nat.le_trans hle ?_)
  simp

omit hd in
/-- A quoted string ends with its quote, whatever follows. -/
theorem quotedBody_append {t s rest : Text} (h : quotedBody t = (s, '"' :: rest)) :
    quotedBody (t ++ r) = (s, '"' :: (rest ++ r)) := by
  fun_induction quotedBody t generalizing s with
  | case1 => cases h
  | case2 t => cases h
  | case3 c t hc u v hu ih =>
    cases h
    rw [List.cons_append, List.cons_append, quotedBody, if_neg hc, ih hu]
  | case4 c t hne hc =>
    cases h
    rw [List.cons_append, quotedBody, if_pos hc]
    exact fun _ _ hb => absurd hb (by decide)
  | case5 c t hne hc u v hu ih =>
    cases h
    rw [List.cons_append, quotedBody, if_neg hc, ih hu]
    exact fun _ _ hb => absurd (.inr (.inl hb)) hc

theorem symbol?_before {t rest : Text} {m : Symbol} (h : symbol? t = some (m, rest)) :
    symbol? (t ++ d :: r) = some (m, rest ++ d :: r) := by
  unfold symbol? at h
  split at h
  case h_12 u hne | h_13 u hne | h_14 u hne | h_15 u hne =>
    -- the first half of a longer symbol
    cases h
    rw [List.cons_append, symbol?]
    exact head_before hd r rfl hne
  case h_16 => cases h
  all_goals
    cases h
    rfl

/-- The token at the front of a text is the same before a separating character. -/
theorem front_before {c : Char} {t rest : Text} {k : Token} (h : front c t = .token k rest) :
    front c (t ++ d :: r) = .token k (rest ++ d :: r) := by
  unfold front at h ⊢
  split at h
  · next hc => rw [if_pos hc, ← List.cons_append, numberAt_before hd, h]; rfl
  · next hc =>
    rw [if_neg hc]
    split at h
    · next hw =>
      rw [if_pos hw, ← List.cons_append]
      exact wordAt_before hd r h
    · next hw =>
      rw [if_neg hw]
      split at h
      · next hq =>
        rw [if_pos hq]
        unfold quotedAt at h ⊢
        split at h
        · next s rest' hb =>
          cases h
          rw [quotedBody_append (d :: r) hb]
          rfl
        · cases h
      · next hq =>
        rw [if_neg hq]
        split at h
        · next m rest' hm =>
          cases h
          rw [← List.cons_append, symbol?_before hd r hm]
        · cases h

end Before

/-! ### Whole texts -/

/-- More fuel than is needed changes nothing. -/
theorem lexFrom_mono {fuel line : Nat} {text : Text} {ts : List Located}
    (h : lexFrom fuel line text = .ok ts) (n : Nat) : lexFrom (fuel + n) line text = .ok ts := by
  induction fuel generalizing line text ts with
  | zero =>
    cases text with
    | nil =>
      cases n with
      | zero => exact h
      | succ n => exact h
    | cons c r => cases h
  | succ fuel ih =>
    rw [Nat.succ_add]
    cases text with
    | nil => exact h
    | cons c r =>
      unfold lexFrom at h ⊢
      split at h
      · next hc => rw [if_pos hc, ih h]
      · next hc =>
        rw [if_neg hc]
        split at h
        · next hs => rw [if_pos hs, ih h]
        · next hs =>
          rw [if_neg hs]
          split at h
          · next t rest ht =>
            obtain ⟨us, hu, rfl⟩ := Parsing.ok_of_map h
            rw [ih hu]
            rfl
          · cases h

/-- A text before a separating character has its tokens as they are. Those from that character on
follow, on some line. -/
theorem lexFrom_before {fuel line : Nat} {text : Text} {ts : List Located}
    (h : lexFrom fuel line text = .ok ts) {d : Char} (hd : separates d = true) {r : Text}
    {us : List Located} (hr : lex (d :: r) 1 = .ok us) :
    ∃ n vs, lex (d :: r) n = .ok vs ∧
      lexFrom (fuel + (d :: r).length) line (text ++ d :: r) = .ok (ts ++ vs) := by
  induction fuel generalizing line text ts with
  | zero =>
    cases text with
    | nil =>
      cases h
      obtain ⟨vs, hv, -⟩ := Statement.lexFrom_relocate hr line
      rw [Nat.zero_add]
      exact ⟨line, vs, hv, hv⟩
    | cons c r => cases h
  | succ fuel ih =>
    cases text with
    | nil =>
      cases h
      obtain ⟨vs, hv, -⟩ := Statement.lexFrom_relocate hr line
      refine ⟨line, vs, hv, ?_⟩
      rw [Nat.add_comm]
      exact lexFrom_mono hv _
    | cons c t =>
      rw [Nat.succ_add, List.cons_append]
      unfold lexFrom at h ⊢
      split at h
      · next hc =>
        rw [if_pos hc]
        exact ih h
      · next hc =>
        rw [if_neg hc]
        split at h
        · next hs =>
          rw [if_pos hs]
          exact ih h
        · next hs =>
          rw [if_neg hs]
          split at h
          · next k rest hk =>
            obtain ⟨ts, hts, rfl⟩ := Parsing.ok_of_map h
            obtain ⟨n, vs, hn, hv⟩ := ih hts
            rw [front_before hd r hk]
            dsimp only
            rw [hv]
            exact ⟨n, vs, hn, rfl⟩
          · cases h

/-- A text before a separating character is cut into its tokens, whatever follows. -/
theorem lexFrom_append {fuel line : Nat} {text : Text} {ts : List Located}
    (h : lexFrom fuel line text = .ok ts) {d : Char} (hd : separates d = true) {r : Text}
    {us : List Located} (hr : lex (d :: r) 1 = .ok us) :
    ∃ vs, lexFrom (fuel + (d :: r).length) line (text ++ d :: r) = .ok vs ∧
      SameTokens (ts ++ us) vs := by
  obtain ⟨n, vs, hn, hv⟩ := lexFrom_before h hd hr
  obtain ⟨vs', hv', hsame⟩ := Statement.lexFrom_relocate hr n
  cases hn.symm.trans hv'
  refine ⟨ts ++ vs, hv, ?_⟩
  rw [SameTokens, List.map_append, List.map_append, hsame]

/-- A text is cut into the given tokens, on whatever line it begins. -/
def Cuts (text : Text) (ts : List Token) : Prop :=
  ∃ us, lex text 1 = .ok us ∧ us.map Located.token = ts

namespace Cuts

variable {text r : Text} {ts us : List Token}

theorem nil : Cuts [] [] := ⟨[], rfl, rfl⟩

theorem on_line (h : Cuts text ts) (line : Nat) :
    ∃ us, lex text line = .ok us ∧ us.map Located.token = ts := by
  obtain ⟨vs, hv, rfl⟩ := h
  obtain ⟨us, hu, hs⟩ := Statement.lexFrom_relocate hv line
  exact ⟨us, hu, hs.symm⟩

/-- The tokens of a text before a separating character, and then those from that character on. -/
theorem append (h : Cuts text ts) {d : Char} (hd : separates d = true) (hr : Cuts (d :: r) us) :
    Cuts (text ++ d :: r) (ts ++ us) := by
  obtain ⟨vs, hv, rfl⟩ := h
  obtain ⟨ws, hw, rfl⟩ := hr
  obtain ⟨xs, hx, hs⟩ := lexFrom_append hv hd hw
  refine ⟨xs, ?_, ?_⟩
  · rw [lex, List.length_append]
    exact hx
  · rw [← List.map_append]
    exact hs.symm

theorem space (h : Cuts r ts) : Cuts (' ' :: r) ts := h

/-- A symbol that is a token whatever follows it. -/
theorem symbol {c : Char} {m : Symbol}
    (hc : ∀ r, lex (c :: r) 1 = (lex r 1).map (⟨.symbol m, 1⟩ :: ·)) (h : Cuts r ts) :
    Cuts (c :: r) (.symbol m :: ts) := by
  obtain ⟨us, hu, rfl⟩ := h
  exact ⟨_, by rw [hc, hu]; rfl, rfl⟩

theorem parenthesis {c : Char} {m : Symbol}
    (hc : c = '(' ∧ m = .openParen ∨ c = ')' ∧ m = .closeParen) (h : Cuts r ts) :
    Cuts (c :: r) (.symbol m :: ts) := by
  rcases hc with ⟨rfl, rfl⟩ | ⟨rfl, rfl⟩
  · exact h.symbol fun _ => rfl
  · exact h.symbol fun _ => rfl

end Cuts
end MailMerge.Token
