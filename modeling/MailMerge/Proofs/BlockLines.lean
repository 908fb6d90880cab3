import MailMerge.Proofs.MacroBlocks

/-!
# The blocks of a source and their lines

The blocks of a source write it back, and each one stands on the line that the line feeds before it
tell. A source has blocks exactly if its markers come in pairs; otherwise the last one opens an
expression that is never closed.
-/

namespace MailMerge

namespace Block

/-! ### What a source is cut into -/

/-- What the text of a block is: that of an expression holds no marker, and a literal one is the
marker alone or some text without markers. -/
def Proper (b : Block) : Prop :=
  if b.isExpression then marker ∉ b.text else b.text ≠ [] ∧ (marker ∉ b.text ∨ b.text = [marker])

/-- Blocks that stand one after the other from a line on. -/
def Numbered (line : Nat) (bs : List Block) : Prop :=
  ∀ before b after, bs = before ++ b :: after →
    b.line = line + Text.lineFeeds (before.flatMap source)

/-- Blocks that a source is cut into. -/
structure Cover (source : Text) (bs : List Block) : Prop where
  /-- Written one after the other, they are the source. -/
  written : bs.flatMap Block.source = source
  /-- Their texts hold no further marker. -/
  proper : ∀ b ∈ bs, b.Proper
  /-- They stand on the lines on which they begin. -/
  numbered : Numbered 1 bs

theorem Numbered.nil (line : Nat) : Numbered line [] := by
  intro before b after h
  simp at h

theorem Numbered.cons {line : Nat} {b : Block} {bs : List Block} (hb : b.line = line)
    (h : Numbered (line + b.source.lineFeeds) bs) : Numbered line (b :: bs) := by
  intro before c after he
  cases before with
  | nil =>
    cases he
    exact hb
  | cons b' before =>
    obtain ⟨rfl, htail⟩ := List.cons.inj he
    rw [h before c after htail, List.flatMap_cons, Text.lineFeeds_append, Nat.add_assoc]

theorem Numbered.literal {line : Nat} {t : Text} (ht : marker ∉ t) {bs : List Block}
    (h : Numbered (line + t.lineFeeds) bs) : Numbered line (literal line t ++ bs) := by
  have hsource : (Block.literal line t).flatMap source = t := flatMap_source_literal ht
  unfold Block.literal at hsource ⊢
  split
  · next he =>
    rw [List.isEmpty_iff.mp he] at h
    exact h
  · next he =>
    rw [if_neg he, List.flatMap_singleton] at hsource
    refine .cons rfl ?_
    rw [hsource]
    exact h

theorem lineFeeds_between (line : Nat) (e : Text) :
    (between line e).source.lineFeeds = e.lineFeeds := by
  rw [source_between, Text.lineFeeds_cons_of_ne (by decide), Text.lineFeeds_append]
  rfl

theorem line_between (line : Nat) (e : Text) : (between line e).line = line := by
  unfold between
  split
  · rfl
  · rfl

theorem proper_between {e : Text} (he : marker ∉ e) (line : Nat) : (between line e).Proper := by
  unfold between
  split
  · exact ⟨List.cons_ne_nil _ _, .inr rfl⟩
  · exact he

theorem proper_literal {t : Text} (ht : marker ∉ t) (line : Nat) :
    ∀ b ∈ literal line t, b.Proper := by
  intro b hb
  unfold literal at hb
  split at hb
  · cases hb
  · next he =>
    rw [List.mem_singleton.mp hb]
    exact ⟨fun h => he (List.isEmpty_iff.mpr h), .inl ht⟩

/-! ### Pairs of an expression and a literal text -/

/-- The blocks of pairs are proper, and numbered from the line on which they begin. -/
theorem ofPairs_numbered {line : Nat} {r : List Text} {ks : List Block} (hm : ∀ p ∈ r, marker ∉ p)
    (h : ofPairs line r = .ok ks) : (∀ b ∈ ks, b.Proper) ∧ Numbered line ks := by
  fun_induction ofPairs line r generalizing ks with
  | case1 line =>
    cases h
    exact ⟨fun b hb => absurd hb List.not_mem_nil, .nil line⟩
  | case2 line e => cases h
  | case3 line e t r after =>
    rename_i ih
    obtain ⟨rest, hrest, h⟩ := Parsing.ok_of_bind h
    cases h
    simp only [List.mem_cons, forall_eq_or_imp] at hm
    obtain ⟨he, ht, hr⟩ := hm
    obtain ⟨hproper, hnumbered⟩ := ih hr hrest
    constructor
    · intro b hb
      rcases List.mem_cons.mp hb with rfl | hb
      · exact proper_between he line
      · rcases List.mem_append.mp hb with hb | hb
        · exact proper_literal ht after b hb
        · exact hproper b hb
    · refine .cons (line_between line e) ?_
      rw [lineFeeds_between]
      exact hnumbered.literal ht

theorem even_of_ofPairs {line : Nat} {r : List Text} {ks : List Block}
    (h : ofPairs line r = .ok ks) : r.length % 2 = 0 := by
  fun_induction ofPairs line r generalizing ks with
  | case1 line => rfl
  | case2 line e => cases h
  | case3 line e t r after =>
    rename_i ih
    obtain ⟨rest, hrest, -⟩ := Parsing.ok_of_bind h
    have := ih hrest
    simp only [List.length_cons]
    omega

/-- One more expression after the last pair is not closed. -/
theorem ofPairs_concat {line : Nat} {r : List Text} {ks : List Block} (e : Text)
    (h : ofPairs line r = .ok ks) :
    ofPairs line (r ++ [e]) = .error ⟨.unterminatedExpression e.trim,
      line + (Text.join [marker] ([] :: r)).lineFeeds⟩ := by
  fun_induction ofPairs line r generalizing ks with
  | case1 line => rfl
  | case2 line e => cases h
  | case3 line e' t r after =>
    rename_i ih
    obtain ⟨rest, hrest, -⟩ := Parsing.ok_of_bind h
    have hjoin : (Text.join [marker] ([] :: e' :: t :: r)).lineFeeds =
        e'.lineFeeds + (t.lineFeeds + (Text.join [marker] ([] :: r)).lineFeeds) := by
      have ht := Text.join_append marker t [] r
      rw [List.append_nil] at ht
      rw [Text.join_cons, Text.join_cons, ht, List.nil_append,
        Text.lineFeeds_cons_of_ne (by decide), Text.lineFeeds_append,
        Text.lineFeeds_cons_of_ne (by decide), Text.lineFeeds_append]
    rw [List.cons_append, List.cons_append, ofPairs, ih hrest, hjoin]
    simp only [bind, Except.bind, after, Nat.add_assoc]

/-! ### Whole sources -/

theorem cover_of_split {source : Text} {bs : List Block} (h : split source = .ok bs) :
    Cover source bs := by
  have hne := Text.pieces_ne_nil marker source
  have hm : ∀ p ∈ source.pieces marker, marker ∉ p := fun p => Text.not_mem_of_mem_pieces
  have hwritten := flatMap_source_of_ofPieces hne hm h
  rw [Text.join_pieces] at hwritten
  obtain ⟨t, r, hp⟩ := List.exists_cons_of_ne_nil hne
  rw [hp] at hm
  simp only [List.mem_cons, forall_eq_or_imp] at hm
  rw [split, hp] at h
  obtain ⟨ks, hks, rfl⟩ := Parsing.ok_of_map h
  obtain ⟨hproper, hnumbered⟩ := ofPairs_numbered hm.2 hks
  refine ⟨hwritten, ?_, hnumbered.literal hm.1⟩
  intro b hb
  rcases List.mem_append.mp hb with hb | hb
  · exact proper_literal hm.1 1 b hb
  · exact hproper b hb

/-- There are blocks exactly if there is one piece more than pairs. -/
theorem exists_split_iff (source : Text) :
    (∃ bs, split source = .ok bs) ↔ Even (source.count marker) := by
  have hlength := Text.length_pieces marker source
  rw [Nat.even_iff]
  constructor
  · rintro ⟨bs, h⟩
    obtain ⟨t, r, hp⟩ := List.exists_cons_of_ne_nil (Text.pieces_ne_nil marker source)
    rw [split, hp] at h
    obtain ⟨ks, hks, -⟩ := Parsing.ok_of_map h
    have heven := even_of_ofPairs hks
    rw [hp, List.length_cons] at hlength
    omega
  · intro heven
    exact exists_ofPieces 1 _ (by omega)

/-- Blocks, and after them a marker that no other one follows. -/
theorem split_unterminated {before after : Text} {bs : List Block} (hb : split before = .ok bs)
    (ha : marker ∉ after) : split (before ++ marker :: after) =
      .error ⟨.unterminatedExpression after.trim, 1 + before.lineFeeds⟩ := by
  have hpieces := Text.pieces_mark marker before after
  rw [Text.pieces_of_not_mem ha] at hpieces
  have hjoin := Text.join_pieces marker before
  obtain ⟨t, r, hp⟩ := List.exists_cons_of_ne_nil (Text.pieces_ne_nil marker before)
  rw [split, hp] at hb
  rw [hp] at hpieces hjoin
  obtain ⟨ks, hks, -⟩ := Parsing.ok_of_map hb
  have hline := Text.join_append marker t [] r
  rw [List.append_nil, hjoin] at hline
  rw [split, hpieces, List.cons_append]
  simp only [ofPairs_concat after hks, Except.map]
  rw [hline, Text.lineFeeds_append, Nat.add_assoc]

/-- With an odd number of markers the last one opens an expression that is never closed. -/
theorem split_odd {source : Text} (hodd : ¬ Even (source.count marker)) :
    ∃ before after, source = before ++ marker :: after ∧ marker ∉ after ∧ split source =
      .error ⟨.unterminatedExpression (Text.trim after), 1 + Text.lineFeeds before⟩ := by
  have hmem : marker ∈ source := by
    by_contra h
    rw [List.count_eq_zero_of_not_mem h] at hodd
    exact hodd Even.zero
  obtain ⟨before, after, rfl, ha⟩ := Text.exists_last hmem
  have heven : Even (before.count marker) := by
    rw [List.count_append, List.count_cons_self, List.count_eq_zero_of_not_mem ha, zero_add,
      Nat.even_add_one, not_not] at hodd
    exact hodd
  obtain ⟨bs, hbs⟩ := (exists_split_iff before).mpr heven
  exact ⟨before, after, rfl, ha, split_unterminated hbs ha⟩

/-- A source has blocks exactly if it holds an even number of markers. They write the source back,
an expression between two markers and a literal marker as two of them; the text of an expression
holds no marker, a literal text is not empty and holds none unless it is the marker alone; and each
block stands on the line on which it begins. With an odd number of markers the last one opens an
expression that is never closed, and the error has the text after it and its line. -/
theorem split_lossless (source : Text) :
    ((∃ bs, split source = .ok bs) ↔ Even (source.count marker)) ∧
      (∀ bs, split source = .ok bs → Cover source bs) ∧
      (¬ Even (source.count marker) → ∃ before after, source = before ++ marker :: after ∧
        marker ∉ after ∧ split source =
          .error ⟨.unterminatedExpression (Text.trim after), 1 + Text.lineFeeds before⟩) := by
  exact ⟨exists_split_iff source, fun bs => cover_of_split, split_odd⟩

/-- Two markers for one next to an expression over two lines, and a source whose last expression is
left open. -/
theorem split_next_to_escape :
    let closed := "a\n$x\ny$$$$z$".toList
    let bs : List Block := [⟨"a\n".toList, false, 1⟩, ⟨"x\ny".toList, true, 2⟩,
      ⟨['$'], false, 3⟩, ⟨['z'], true, 3⟩]
    let opened := "a\n$x$\n$$ $ b\n".toList
    (split closed = .ok bs ∧ Even (closed.count marker) ∧ Cover closed bs) ∧
      ¬ Even (opened.count marker) ∧ ∃ before after, opened = before ++ marker :: after ∧
        marker ∉ after ∧ split opened =
          .error ⟨.unterminatedExpression (Text.trim after), 1 + Text.lineFeeds before⟩ := by
  intro closed bs opened
  have hclosed : split closed = .ok bs := rfl
  have heven : Even (closed.count marker) := (split_lossless closed).1.mp ⟨bs, hclosed⟩
  have hodd : ¬ Even (opened.count marker) := by decide
  exact ⟨⟨hclosed, heven, (split_lossless closed).2.1 bs hclosed⟩, hodd,
    (split_lossless opened).2.2 hodd⟩

end Block
end MailMerge
