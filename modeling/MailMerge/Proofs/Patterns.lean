import MailMerge.Proofs.ConditionGrammar
import MailMerge.Proofs.PathShape
import MailMerge.Proofs.TemplateGrammar

/-!
# The patterns and the loop names of a template

What a template looks up and which names its loops bind, collected from its tree, and their shape
in a template that was parsed: every pattern stood as a path in an expression, and every loop name
is a plain name.
-/

namespace MailMerge

open Parsing

/-! ### Elements -/

namespace Element

mutual

/-- The patterns of an element, from left to right. -/
def patterns : Element → List Text
  | .access p => [p]
  | .constant _ _ => []
  | .arithmetic _ l r => l.patterns ++ r.patterns
  | .call _ as => patternsAll as

/-- The patterns of elements, from left to right. -/
def patternsAll : List Element → List Text
  | [] => []
  | e :: es => e.patterns ++ patternsAll es

end

end Element

/-- Every pattern stands as a path among the tokens. -/
def Standing (ts : List Located) (ps : List Text) : Prop := ∀ p ∈ ps, ∃ t ∈ ts, t.token = .path p

namespace Standing

theorem nil {ts : List Located} : Standing ts [] := nofun

theorem append {ts us : List Located} {ps qs : List Text} (hp : Standing ts ps)
    (hq : Standing us qs) : Standing (ts ++ us) (ps ++ qs) := by
  intro p h
  rcases List.mem_append.mp h with h | h
  · obtain ⟨t, ht, he⟩ := hp p h
    exact ⟨t, List.mem_append_left _ ht, he⟩
  · obtain ⟨t, ht, he⟩ := hq p h
    exact ⟨t, List.mem_append_right _ ht, he⟩

theorem mono {ts us : List Located} {ps : List Text} (h : Standing ts ps) (hs : ts ⊆ us) :
    Standing us ps := by
  intro p hp
  obtain ⟨t, ht, he⟩ := h p hp
  exact ⟨t, hs ht, he⟩

/-- What stands between the first tokens and the last one of a list stands in it. -/
theorem within {us : List Located} {ps : List Text} (h : Standing us ps) (ts : List Located)
    (t : Located) : Standing (ts ++ (us ++ [t])) ps :=
  h.mono fun _ hm => List.mem_append_right _ (List.mem_append_left _ hm)

/-- The patterns of a chain stand in it, if those of every operand stand in the operand. -/
theorem chained {α : Type} {patterns : α → List Text} {Operand : List Located → α → Prop}
    {join? : Token → Option (α → α → α)}
    (hj : ∀ {t f a b}, join? t = some f → patterns (f a b) = patterns a ++ patterns b) {n : Nat}
    (ho : ∀ {v b}, v.length ≤ n → Operand v b → Standing v (patterns b)) {u : List Located}
    {a : α} (h : Chained Operand join? u a) (hn : u.length ≤ n) : Standing u (patterns a) := by
  induction h with
  | one hu => exact ho hn hu
  | @more u v t f a b hu ht hv ih =>
    rw [List.length_append, List.length_cons] at hn
    have hb : Standing (t :: v) (patterns b) :=
      (ho (by omega) hv).mono (List.subset_cons_of_subset t (List.Subset.refl v))
    rw [hj ht]
    exact (ih (by omega)).append hb

end Standing

namespace Element

theorem patterns_product {t : Token} {f : Element → Element → Element} {a b : Element}
    (h : productJoin? t = some f) : (f a b).patterns = a.patterns ++ b.patterns := by
  unfold productJoin? at h
  split at h <;> cases h <;> rw [patterns]

theorem patterns_sum {t : Token} {f : Element → Element → Element} {a b : Element}
    (h : sumJoin? t = some f) : (f a b).patterns = a.patterns ++ b.patterns := by
  unfold sumJoin? at h
  split at h <;> cases h <;> rw [patterns]

theorem standing_phrase {n : Nat}
    (ho : ∀ {v b}, v.length ≤ n → Operand v b → Standing v b.patterns) {u : List Located}
    {e : Element} (h : Phrase u e) (hn : u.length ≤ n) : Standing u e.patterns :=
  Standing.chained patterns_sum
    (fun hv hc => Standing.chained patterns_product ho hc hv) h hn

theorem standing_listed {n : Nat}
    (ho : ∀ {v b}, v.length ≤ n → Operand v b → Standing v b.patterns) {u : List Located}
    {as : List Element} (h : Listed Phrase u as) (hn : u.length ≤ n) :
    Standing u (patternsAll as) := by
  induction h with
  | one hu =>
    rw [patternsAll, patternsAll, List.append_nil]
    exact standing_phrase ho hu hn
  | @more u v t e es hu ht hv ih =>
    rw [List.length_append, List.length_cons] at hn
    rw [patternsAll]
    have hes : Standing (t :: v) (patternsAll es) :=
      (ih (by omega)).mono (List.subset_cons_of_subset t (List.Subset.refl v))
    exact (standing_phrase ho hu (by omega)).append hes

/-- The patterns of an operand stand among its tokens: by induction on how many there are. -/
theorem standing_operand (n : Nat) :
    ∀ {u : List Located} {e : Element}, u.length < n → Operand u e → Standing u e.patterns := by
  induction n with
  | zero => exact fun hn => absurd hn (Nat.not_lt_zero _)
  | succ n ih =>
    intro u e hn h
    cases h with
    | number hv => exact Standing.nil
    | quoted hv => exact Standing.nil
    | bool => exact Standing.nil
    | negative hv => exact Standing.nil
    | access =>
      rintro p hp
      rw [patterns, List.mem_singleton] at hp
      exact ⟨_, List.mem_singleton_self _, by rw [hp]⟩
    | callEmpty hf hs ht => exact Standing.nil
    | @call f line s t u as hf hs hu ht =>
      simp only [List.length_cons, List.length_append] at hn
      have has := standing_listed (fun hv => ih (by omega)) hu (Nat.le_refl _)
      exact has.within [⟨.path f, line⟩, s] t
    | @group s t u e hs hu ht =>
      simp only [List.length_cons, List.length_append] at hn
      exact (standing_phrase (fun hv => ih (by omega)) hu (Nat.le_refl _)).within [s] t

/-- The patterns of an element stand among the tokens it is read from. -/
theorem standing_parse {ts rest : List Located} {e : Element} (h : parse ts = .ok (e, rest)) :
    ∃ u, ts = u ++ rest ∧ Standing u e.patterns := by
  obtain ⟨u, hu, hp⟩ := parse_sound h
  exact ⟨u, hu, standing_phrase (fun hv => standing_operand _ (Nat.lt_succ_of_le hv)) hp
    (Nat.le_refl _)⟩

end Element

/-! ### Conditions -/

namespace Condition

/-- The patterns of a condition, from left to right. -/
def patterns : Condition → List Text
  | .single e => e.patterns
  | .both a b => a.patterns ++ b.patterns
  | .either a b => a.patterns ++ b.patterns
  | .negated a => a.patterns
  | .compare _ l r => l.patterns ++ r.patterns
  | .present e => e.patterns
  | .ofKind e _ => e.patterns

/-- The patterns of an element that is read to its end stand among its tokens. -/
theorem standing_element {u : List Located} {e : Element} (h : Element.parse u = .ok (e, [])) :
    Standing u e.patterns := by
  obtain ⟨v, rfl, hv⟩ := Element.standing_parse h
  rwa [List.append_nil]

theorem patterns_or {t : Token} {f : Condition → Condition → Condition} {a b : Condition}
    (h : orJoin? t = some f) : (f a b).patterns = a.patterns ++ b.patterns := by
  unfold orJoin? at h
  split at h <;> cases h
  rfl

theorem patterns_and {t : Token} {f : Condition → Condition → Condition} {a b : Condition}
    (h : andJoin? t = some f) : (f a b).patterns = a.patterns ++ b.patterns := by
  unfold andJoin? at h
  split at h <;> cases h
  rfl

theorem standing_negation {n : Nat}
    (hp : ∀ {v c}, v.length ≤ n → Primary v c → Standing v c.patterns) {u : List Located}
    {c : Condition} (h : Negation Primary u c) (hn : u.length ≤ n) : Standing u c.patterns := by
  induction h with
  | one hu => exact hp hn hu
  | @not t u c ht hu ih =>
    have hc : Standing u c.patterns := ih (Nat.le_of_succ_le hn)
    exact hc.mono (List.subset_cons_of_subset t (List.Subset.refl u))

theorem standing_phrase {n : Nat}
    (hp : ∀ {v c}, v.length ≤ n → Primary v c → Standing v c.patterns) {u : List Located}
    {c : Condition} (h : Phrase u c) (hn : u.length ≤ n) : Standing u c.patterns :=
  Standing.chained patterns_or
    (fun hv hc => Standing.chained patterns_and
      (fun hw hd => standing_negation hp hd hw) hc hv) h hn

/-- The patterns of a primary condition stand among its tokens: by induction on how many there
are. -/
theorem standing_primary (n : Nat) :
    ∀ {u : List Located} {c : Condition}, u.length < n → Primary u c → Standing u c.patterns := by
  induction n with
  | zero => exact fun hn => absurd hn (Nat.not_lt_zero _)
  | succ n ih =>
    intro u c hn h
    cases h with
    | @group s t u c hs hu ht =>
      simp only [List.length_cons, List.length_append] at hn
      exact (standing_phrase (fun hv => ih (by omega)) hu (Nat.le_refl _)).within [s] t
    | @present t u e ht hu =>
      exact (standing_element hu).mono (List.subset_cons_of_subset t (List.Subset.refl u))
    | ofKind hu hs ht hk => exact (standing_element hu).mono (List.subset_append_left _ _)
    | @compare t u v l r op hu ht hv =>
      have hr : Standing (t :: v) r.patterns :=
        (standing_element hv).mono (List.subset_cons_of_subset t (List.Subset.refl v))
      exact (standing_element hu).append hr
    | single hu => exact standing_element hu

/-- The patterns of a condition stand among the tokens it is read from. -/
theorem standing_parse {ts rest : List Located} {c : Condition} (h : parse ts = .ok (c, rest)) :
    ∃ u, ts = u ++ rest ∧ Standing u c.patterns := by
  obtain ⟨u, hu, hp⟩ := parse_sound h
  exact ⟨u, hu, standing_phrase (fun hv => standing_primary _ (Nat.lt_succ_of_le hv)) hp
    (Nat.le_refl _)⟩

end Condition

/-! ### Statements -/

namespace Header

/-- The names that a loop binds. -/
def names (h : Header) : List Text := h.item :: h.index.toList

/-- Phrases for the header of a loop, after `for`. -/
inductive Phrase : List Located → Header → Prop where
  | item {i p : Text} {line line' line'' : Nat} (hi : Token.isPlainName i = true) :
      Phrase [⟨.path i, line⟩, ⟨.keyword .in_, line'⟩, ⟨.path p, line''⟩] ⟨i, none, p⟩
  | index {i n p : Text} {l₁ l₂ l₃ l₄ l₅ : Nat} (hi : Token.isPlainName i = true)
      (hn : Token.isPlainName n = true) :
      Phrase [⟨.path i, l₁⟩, ⟨.symbol .comma, l₂⟩, ⟨.path n, l₃⟩, ⟨.keyword .in_, l₄⟩,
        ⟨.path p, l₅⟩] ⟨i, some n, p⟩

theorem Phrase.names {u : List Located} {h : Header} (hp : Phrase u h) :
    ∀ n ∈ h.names, Token.isPlainName n = true := by
  cases hp with
  | item hi => simpa [Header.names] using hi
  | index hi hn => simpa [Header.names] using And.intro hi hn

theorem Phrase.standing {u : List Located} {h : Header} (hp : Phrase u h) :
    Standing u [h.target] := by
  intro q hq
  rw [List.mem_singleton.mp hq]
  cases hp with
  | item => exact ⟨_, List.mem_of_getLast? rfl, rfl⟩
  | index => exact ⟨_, List.mem_of_getLast? rfl, rfl⟩

end Header

namespace Statement

/-- The patterns of a statement. -/
def patterns : Statement → List Text
  | .if_ c => c.patterns
  | .for_ h => [h.target]
  | .emit e => e.patterns
  | .else_ | .end_ => []

/-- The names that a statement binds. -/
def names : Statement → List Text
  | .for_ h => h.names
  | _ => []

/-- A statement whose patterns are paths and whose names are plain. -/
structure WellFormed (s : Statement) : Prop where
  patterns : ∀ p ∈ s.patterns, Pattern.IsWritten p
  names : ∀ n ∈ s.names, Token.isPlainName n = true

theorem plainName_sound {what name : Text} {ts rest : List Located}
    (h : plainName what ts = .ok (name, rest)) :
    ∃ line, ts = ⟨.path name, line⟩ :: rest ∧ Token.isPlainName name = true := by
  obtain - | ⟨⟨t, line⟩, ts⟩ := ts
  · cases h
  · unfold plainName at h
    dsimp only at h
    split at h
    · split at h
      · next hp =>
        cases h
        exact ⟨line, rfl, hp⟩
      · cases h
    · cases h

theorem indexName_sound {i : Option Text} {ts rest : List Located}
    (h : indexName ts = .ok (i, rest)) :
    i = none ∧ ts = rest ∨ ∃ line line' n, i = some n ∧ Token.isPlainName n = true ∧
      ts = ⟨.symbol .comma, line⟩ :: ⟨.path n, line'⟩ :: rest := by
  unfold indexName at h
  split at h
  · obtain ⟨⟨n, r⟩, hn, h⟩ := ok_of_bind h
    cases h
    obtain ⟨line, rfl, hplain⟩ := plainName_sound hn
    exact .inr ⟨_, line, n, rfl, hplain, rfl⟩
  · cases h
    exact .inl ⟨rfl, rfl⟩

theorem expect_sound {token : Token} {ts rest : List Located}
    (h : expect token ts = .ok ((), rest)) : ∃ line, ts = ⟨token, line⟩ :: rest := by
  obtain - | ⟨⟨t, line⟩, ts⟩ := ts
  · cases h
  · simp only [expect] at h
    split at h
    · next ht =>
      cases ht
      cases h
      exact ⟨line, rfl⟩
    · cases h

/-- The header of a loop takes its names, `in` and a path. -/
theorem header_sound : Sound header Header.Phrase := by
  intro ts hd rest h
  obtain ⟨⟨item, t₁⟩, h₁, h⟩ := ok_of_bind h
  obtain ⟨⟨index, t₂⟩, h₂, h⟩ := ok_of_bind h
  obtain ⟨⟨⟨⟩, t₃⟩, h₃, h⟩ := ok_of_bind h
  simp only at h
  split at h
  · cases h
  · next p line t₄ =>
    cases h
    obtain ⟨line', rfl, hitem⟩ := plainName_sound h₁
    obtain ⟨line'', rfl⟩ := expect_sound h₃
    rcases indexName_sound h₂ with ⟨rfl, rfl⟩ | ⟨_, _, n, rfl, hn, rfl⟩
    · exact ⟨_, rfl, .item hitem⟩
    · exact ⟨_, rfl, .index hitem hn⟩
  · cases h

/-- The names of a statement are plain, and its patterns stand among the tokens it is read from. -/
theorem body_sound {s : Statement} {ts rest : List Located} (h : body ts = .ok (s, rest)) :
    (∀ n ∈ s.names, Token.isPlainName n = true) ∧ Standing ts s.patterns := by
  unfold body at h
  split at h
  · next k line ts =>
    cases k with
    | if_ =>
      obtain ⟨⟨c, r⟩, hc, hr⟩ := ok_of_bind h
      obtain ⟨u, rfl, hu⟩ := Condition.standing_parse hc
      cases hr
      exact ⟨nofun, hu.mono (List.subset_cons_of_subset _ (List.subset_append_left _ _))⟩
    | for_ =>
      obtain ⟨⟨hd, r⟩, hh, h⟩ := ok_of_bind h
      cases h
      obtain ⟨u, rfl, hp⟩ := header_sound hh
      exact ⟨hp.names,
        hp.standing.mono (List.subset_cons_of_subset _ (List.subset_append_left _ _))⟩
    | else_ | end_ =>
      cases h
      exact ⟨nofun, Standing.nil⟩
    | _ => cases h
  · obtain ⟨⟨e, r⟩, he, hr⟩ := ok_of_bind h
    obtain ⟨u, rfl, hu⟩ := Element.standing_parse he
    cases hr
    exact ⟨nofun, hu.mono (List.subset_append_left _ _)⟩

/-- A statement that is read is well formed. -/
theorem wellFormed_of_parse {text : Text} {line : Nat} {s : Statement}
    (h : parse text line = .ok s) : s.WellFormed := by
  obtain ⟨ts, hl, hb⟩ := parse_eq_ok_iff.mp h
  obtain ⟨hn, hp⟩ := body_sound hb
  refine ⟨fun p hm => ?_, hn⟩
  obtain ⟨t, ht, he⟩ := hp p hm
  exact ⟨text, line, ts, hl, t, ht, he⟩

end Statement

/-! ### Templates -/

namespace Outline

/-- The patterns of an outline, those of loop targets included. -/
def patterns : Outline → List Text
  | .done => []
  | .text _ n => n.patterns
  | .emit e n => e.patterns ++ n.patterns
  | .branch c y z n => c.patterns ++ (y.patterns ++ (z.patterns ++ n.patterns))
  | .loop h b n => h.target :: (b.patterns ++ n.patterns)

/-- The names that the loops of an outline bind. -/
def names : Outline → List Text
  | .done => []
  | .text _ n => n.names
  | .emit _ n => n.names
  | .branch _ y z n => y.names ++ (z.names ++ n.names)
  | .loop h b n => h.names ++ (b.names ++ n.names)

/-- An outline whose patterns are paths and whose loop names are plain. -/
structure WellFormed (o : Outline) : Prop where
  patterns : ∀ p ∈ o.patterns, Pattern.IsWritten p
  names : ∀ n ∈ o.names, Token.isPlainName n = true

end Outline

namespace Outline.WellFormed

variable {c : Condition} {y z n : Outline}

theorem branch (hc : ∀ p ∈ c.patterns, Pattern.IsWritten p) (hy : y.WellFormed)
    (hz : z.WellFormed) (hn : n.WellFormed) : (Outline.branch c y z n).WellFormed := by
  refine ⟨fun p hp => ?_, fun m hm => ?_⟩
  · simp only [Outline.patterns, List.mem_append] at hp
    rcases hp with hp | hp | hp | hp
    · exact hc p hp
    · exact hy.patterns p hp
    · exact hz.patterns p hp
    · exact hn.patterns p hp
  · simp only [Outline.names, List.mem_append] at hm
    rcases hm with hm | hm | hm
    · exact hy.names m hm
    · exact hz.names m hm
    · exact hn.names m hm

theorem loop {h : Header} (ht : Pattern.IsWritten h.target)
    (hh : ∀ m ∈ h.names, Token.isPlainName m = true) (hy : y.WellFormed) (hn : n.WellFormed) :
    (Outline.loop h y n).WellFormed := by
  refine ⟨fun p hp => ?_, fun m hm => ?_⟩
  · simp only [Outline.patterns, List.mem_cons, List.mem_append] at hp
    rcases hp with rfl | hp | hp
    · exact ht
    · exact hy.patterns p hp
    · exact hn.patterns p hp
  · simp only [Outline.names, List.mem_append] at hm
    rcases hm with hm | hm | hm
    · exact hh m hm
    · exact hy.names m hm
    · exact hn.names m hm

end Outline.WellFormed

/-- An outline is well formed if the statements are from which it is derived. -/
theorem Balanced.wellFormed {ps : List Piece} {o : Outline} (h : Balanced ps o)
    (hs : ∀ s, .statement s ∈ ps → s.WellFormed) : o.WellFormed := by
  induction h with
  | nil => exact ⟨nofun, nofun⟩
  | text t _ ih =>
    obtain ⟨hp, hn⟩ := ih fun s hm => hs s (List.mem_cons_of_mem _ hm)
    exact ⟨hp, hn⟩
  | emit e _ ih =>
    obtain ⟨hp, hn⟩ := ih fun s hm => hs s (List.mem_cons_of_mem _ hm)
    refine ⟨fun p hm => ?_, hn⟩
    rcases List.mem_append.mp hm with hm | hm
    · exact (hs _ List.mem_cons_self).patterns p hm
    · exact hp p hm
  | if_ c _ _ ihy ih =>
    exact .branch (hs _ List.mem_cons_self).patterns (ihy fun s hm => hs s (by simp [hm]))
      ⟨nofun, nofun⟩ (ih fun s hm => hs s (by simp [hm]))
  | ifElse c _ _ _ ihy ihz ih =>
    exact .branch (hs _ List.mem_cons_self).patterns (ihy fun s hm => hs s (by simp [hm]))
      (ihz fun s hm => hs s (by simp [hm])) (ih fun s hm => hs s (by simp [hm]))
  | for_ hd _ _ ihb ih =>
    have hw := hs _ List.mem_cons_self
    exact .loop (hw.patterns _ List.mem_cons_self) hw.names
      (ihb fun s hm => hs s (by simp [hm])) (ih fun s hm => hs s (by simp [hm]))

namespace Template

/-- The statements of a template are read from its blocks. -/
theorem wellFormed_of_read {ks : List Block} {ps : List Piece}
    (h : ks.map Piece.read = ps.map .ok) {s : Statement} (hs : .statement s ∈ ps) :
    s.WellFormed := by
  have hm : Except.ok (.statement s) ∈ ks.map Piece.read := h ▸ List.mem_map_of_mem hs
  obtain ⟨k, -, hk⟩ := List.mem_map.mp hm
  unfold Piece.read at hk
  split at hk
  · obtain ⟨s', hp, he⟩ := ok_of_bind hk
    cases he
    exact Statement.wellFormed_of_parse hp
  · cases hk

/-- The outline of a template that was parsed is well formed. -/
theorem wellFormed_of_parse {source : Text} {t : Template} (h : parse source = .ok t) :
    t.outline.WellFormed := by
  obtain ⟨ks, ps, o, hs, hk, hb⟩ := balanced_of_parse h
  rw [parse_of_balanced hs hk hb] at h
  cases h
  rw [outline_ofOutline]
  exact hb.wellFormed fun s hm => wellFormed_of_read hk hm

end Template
end MailMerge
