import MailMerge.Proofs.Relocation

/-!
# Splitting texts one after the other

The pieces of a text, cut at its markers, spell blocks: literal texts and what stands between two
markers. Where one text follows another, the last piece of the first and the first piece of the
second are one piece, so that a text that spells blocks leaves the blocks after it as they are, but
for the literal text in which the two meet.
-/

namespace MailMerge

/-! ### Pieces -/

namespace Text

/-- Two lists of pieces, the last one of the first joined with the first one of the second. -/
def glue : List Text → List Text → List Text
  | [], qs => qs
  | [p], [] => [p]
  | [p], q :: qs => (p ++ q) :: qs
  | p :: p' :: ps, qs => p :: glue (p' :: ps) qs

/-- The pieces of one text after another: the pieces of both, glued where the texts meet. -/
theorem pieces_append (mark : Char) (s t : Text) :
    pieces mark (s ++ t) = glue (pieces mark s) (pieces mark t) := by
  induction s with
  | nil =>
    obtain ⟨q, qs, hq⟩ := List.exists_cons_of_ne_nil (pieces_ne_nil mark t)
    rw [List.nil_append, hq]
    rfl
  | cons c r ih =>
    obtain ⟨p, ps, hp⟩ := List.exists_cons_of_ne_nil (pieces_ne_nil mark r)
    obtain ⟨q, qs, hq⟩ := List.exists_cons_of_ne_nil (pieces_ne_nil mark t)
    rw [hp, hq] at ih
    rw [List.cons_append, pieces, ih, pieces, hp, hq]
    cases ps with
    | nil => by_cases hc : c = mark <;> simp [glue, hc]
    | cons p' ps => by_cases hc : c = mark <;> simp [glue, hc]

end Text

/-! ### What the pieces spell -/

namespace Piece

/-- A literal text, left out if it is empty. -/
def literal (t : Text) : List Piece := if t.isEmpty then [] else [.text t]

theorem map_read_literal (line : Nat) (t : Text) :
    (Block.literal line t).map read = (literal t).map .ok := by
  unfold Block.literal literal
  split
  · rfl
  · rfl

theorem map_ok_inj {ps qs : List Piece}
    (h : ps.map (.ok : _ → Except TemplateError Piece) = qs.map .ok) : ps = qs :=
  (List.map_inj_right fun _ _ => Except.ok.inj).mp h

/-- What stands between two markers is read alike on all lines. -/
theorem read_between {line : Nat} {e : Text} {p : Piece} (h : read (.between line e) = .ok p)
    (line' : Nat) : read (.between line' e) = .ok p := by
  unfold Block.between at h ⊢
  split at h
  · next he =>
    rw [if_pos he]
    exact read_relocate h line'
  · next he =>
    rw [if_neg he]
    exact read_relocate h line'

/-- A block between two markers says what its text says. -/
theorem read_statement_iff {line : Nat} {e : Text} {s : Statement} :
    read (.between line e) = .ok (.statement s) ↔ Statement.parse e line = .ok s := by
  unfold Block.between read
  cases e with
  | nil =>
    constructor
    · rintro ⟨⟩
    · intro h
      obtain ⟨ts, hl, hb⟩ := Statement.parse_eq_ok_iff.mp h
      cases hl
      cases hb
  | cons c r =>
    change (Statement.parse (c :: r) line >>= fun s => .ok (Piece.statement s)) = _ ↔ _
    cases Statement.parse (c :: r) line with
    | error e => exact ⟨nofun, nofun⟩
    | ok s' =>
      constructor
      · rintro ⟨⟩
        rfl
      · rintro ⟨⟩
        rfl

theorem exists_statement_of_read {line : Nat} {e : Text} {p : Piece} (he : e ≠ [])
    (h : read (.between line e) = .ok p) : ∃ s, p = .statement s := by
  rw [Block.between, if_neg (by rwa [List.isEmpty_iff])] at h
  obtain ⟨s, -, hs⟩ := Parsing.ok_of_bind h
  cases hs
  exact ⟨s, rfl⟩

/-- Pairs of an expression and a literal text, and the blocks they spell. -/
inductive Pairs : List Text → List Piece → Prop where
  | nil : Pairs [] []
  | cons {e : Text} {r : List Text} {p : Piece} {ps : List Piece} (t : Text)
      (he : read (.between 1 e) = .ok p) (h : Pairs r ps) :
      Pairs (e :: t :: r) (p :: (literal t ++ ps))

/-- The pieces of a source, and the blocks they spell. -/
inductive Spells : List Text → List Piece → Prop where
  | mk {r : List Text} {ps : List Piece} (t : Text) (h : Pairs r ps) :
      Spells (t :: r) (literal t ++ ps)

theorem spells_cons {t : Text} {r : List Text} {rs : List Piece} :
    Spells (t :: r) rs ↔ ∃ ps, Pairs r ps ∧ rs = literal t ++ ps := by
  constructor
  · rintro ⟨_, h⟩
    exact ⟨_, h, rfl⟩
  · rintro ⟨ps, h, rfl⟩
    exact .mk t h

/-- A text whose pieces have been cut apart into blocks spells what is read from these. -/
theorem pairs_of_ofPairs {line : Nat} {r : List Text} {ks : List Block} {ps : List Piece}
    (h : Block.ofPairs line r = .ok ks) (hk : ks.map read = ps.map .ok) : Pairs r ps := by
  fun_induction Block.ofPairs line r generalizing ks ps with
  | case1 line =>
    cases h
    rw [List.map_eq_nil_iff.1 hk.symm]
    exact .nil
  | case2 line e => cases h
  | case3 line e t r _ =>
    rename_i ih
    obtain ⟨rest, hr, h⟩ := Parsing.ok_of_bind h
    cases h
    obtain ⟨p, qs, rfl, hp, hq⟩ := List.map_eq_cons_iff.1 hk.symm
    rw [List.map_append, map_read_literal] at hq
    obtain ⟨us, vs, rfl, hu, hv⟩ := List.map_eq_append_iff.1 hq
    cases map_ok_inj hu
    exact .cons t (read_between hp.symm 1) (ih hr hv.symm)

/-- Blocks that pieces spell are read from these, wherever they begin. -/
theorem Pairs.ofPairs {r : List Text} {ps : List Piece} (h : Pairs r ps) (line : Nat) :
    ∃ ks, Block.ofPairs line r = .ok ks ∧ ks.map read = ps.map .ok := by
  induction h generalizing line with
  | nil => exact ⟨[], rfl, rfl⟩
  | @cons e r p ps t he _ ih =>
    obtain ⟨ks, hks, hk⟩ := ih (line + e.lineFeeds + t.lineFeeds)
    refine ⟨.between line e :: (Block.literal (line + e.lineFeeds) t ++ ks), ?_, ?_⟩
    · simp only [Block.ofPairs, hks, bind, Except.bind]
    · rw [List.map_cons, read_between he, List.map_append, map_read_literal, hk, List.map_cons,
        List.map_append]

/-- Which blocks are read from a source is told by its pieces. -/
theorem spells_iff (source : Text) (ps : List Piece) :
    Spells (source.pieces marker) ps ↔
      ∃ ks, Block.split source = .ok ks ∧ ks.map read = ps.map .ok := by
  obtain ⟨t, r, hp⟩ := List.exists_cons_of_ne_nil (Text.pieces_ne_nil marker source)
  rw [Block.split, hp]
  constructor
  · rintro ⟨_, h⟩
    obtain ⟨ks, hks, hk⟩ := h.ofPairs (1 + t.lineFeeds)
    refine ⟨Block.literal 1 t ++ ks, ?_, ?_⟩
    · simp only [hks]
      rfl
    · rw [List.map_append, map_read_literal, hk, List.map_append]
  · rintro ⟨ks, hs, hk⟩
    obtain ⟨ls, hl, rfl⟩ := Parsing.ok_of_map hs
    rw [List.map_append, map_read_literal] at hk
    obtain ⟨us, vs, rfl, hu, hv⟩ := List.map_eq_append_iff.1 hk.symm
    cases map_ok_inj hu
    exact .mk t (pairs_of_ofPairs hl hv.symm)

/-- Pieces without markers that spell blocks are those of a text. -/
theorem Spells.exists_text {ts : List Text} {ps : List Piece} (h : Spells ts ps)
    (hm : ∀ t ∈ ts, marker ∉ t) : ∃ u : Text, u.pieces marker = ts := by
  obtain ⟨t, -⟩ := h
  exact ⟨_, Text.pieces_join marker t _ hm⟩

/-! ### One after the other -/

/-- What pieces spell ends with a literal text, in which they meet the pieces glued to them; the
blocks before it and those after it are as they were. -/
theorem spells_glue {us : List Text} {ps : List Piece} (h : Spells us ps) :
    ∃ front p, ps = front ++ literal p ∧ ∀ q qs rs, Spells (Text.glue us (q :: qs)) rs ↔
      ∃ back, Pairs qs back ∧ rs = front ++ (literal (p ++ q) ++ back) := by
  obtain ⟨t, hpairs⟩ := h
  induction hpairs generalizing t with
  | nil => exact ⟨[], t, List.append_nil _, fun q qs rs => spells_cons⟩
  | @cons e r p ps t' he _ ih =>
    obtain ⟨front, l, hl, hglue⟩ := ih t'
    refine ⟨literal t ++ p :: front, l, by rw [hl, List.append_assoc, List.cons_append],
      fun q qs rs => ?_⟩
    obtain ⟨t₁, r₁, hg⟩ : ∃ t₁ r₁, Text.glue (t' :: r) (q :: qs) = t₁ :: r₁ := by
      cases r with
      | nil => exact ⟨_, _, rfl⟩
      | cons e' r => exact ⟨_, _, rfl⟩
    have hcons : Text.glue (t :: e :: t' :: r) (q :: qs) = t :: e :: t₁ :: r₁ := by
      rw [← hg]
      rfl
    have hmeet := hglue q qs
    rw [hg] at hmeet
    rw [hcons, spells_cons]
    constructor
    · rintro ⟨_, _ | ⟨_, he', hr⟩, rfl⟩
      cases he.symm.trans he'
      obtain ⟨back, hb, hrs⟩ := (hmeet _).mp (.mk t₁ hr)
      exact ⟨back, hb, by rw [hrs, List.append_assoc, List.cons_append]⟩
    · rintro ⟨back, hb, rfl⟩
      obtain ⟨xs, hx, hxs⟩ := spells_cons.mp ((hmeet _).mpr ⟨back, hb, rfl⟩)
      exact ⟨_, .cons t₁ he hx, by rw [← hxs, List.append_assoc, List.cons_append]⟩

/-! ### Around an expression -/

/-- Pieces around an expression, which are blocks by themselves. -/
theorem Spells.around {us vs : List Text} {xs ps : List Piece} {e : Text} {p : Piece}
    (hx : Spells us xs) (he : read (.between 1 e) = .ok p) (hp : Spells vs ps) :
    Spells (us ++ e :: vs) (xs ++ p :: ps) := by
  obtain ⟨t', hp⟩ := hp
  obtain ⟨t, hx⟩ := hx
  induction hx generalizing t with
  | nil =>
    rw [List.append_nil]
    exact .mk t (.cons t' he hp)
  | @cons f r q qs u hf _ ih =>
    obtain ⟨rs, hrs, heq⟩ := spells_cons.mp (ih u)
    have hcons : Spells (t :: f :: u :: (r ++ e :: t' :: _))
        (literal t ++ (q :: (literal u ++ rs))) :=
      .mk t (.cons u hf hrs)
    rw [← heq] at hcons
    simpa using hcons

/-- A literal text at the front of blocks stands before every statement among them. -/
theorem eq_append_of_literal {t : Text} {ys xs ps : List Piece} {s : Statement}
    (h : literal t ++ ys = xs ++ .statement s :: ps) :
    ∃ zs, xs = literal t ++ zs ∧ ys = zs ++ .statement s :: ps := by
  unfold literal at h ⊢
  split at h
  · next ht =>
    rw [if_pos ht]
    exact ⟨xs, rfl, h⟩
  · next ht =>
    rw [if_neg ht]
    cases xs with
    | nil => cases h
    | cons x xs =>
      obtain ⟨rfl, hy⟩ := List.cons.inj h
      exact ⟨xs, rfl, hy⟩

/-- A statement among the blocks that pieces spell is what one of the pieces says, and the pieces
around it spell the blocks around it. -/
theorem Spells.exists_around {us : List Text} {rs xs ps : List Piece} {s : Statement}
    (h : Spells us rs) (hrs : rs = xs ++ .statement s :: ps) :
    ∃ vs e ws, us = vs ++ e :: ws ∧ Spells vs xs ∧ read (.between 1 e) = .ok (.statement s) ∧
      Spells ws ps := by
  obtain ⟨t, hp⟩ := h
  induction hp generalizing t xs with
  | nil =>
    obtain ⟨zs, -, hz⟩ := eq_append_of_literal hrs
    exact absurd hz (by simp)
  | @cons e r p qs t' he hr ih =>
    obtain ⟨zs, rfl, hz⟩ := eq_append_of_literal hrs
    cases zs with
    | nil =>
      cases hz
      refine ⟨[t], e, t' :: r, rfl, ?_, he, .mk t' hr⟩
      exact .mk t .nil
    | cons z zs =>
      obtain ⟨rfl, hq⟩ := List.cons.inj hz
      obtain ⟨vs, e', ws, hvs, hv, he', hw⟩ := ih t' hq
      obtain ⟨u, hv⟩ := hv
      refine ⟨t :: e :: u :: _, e', ws, by rw [hvs]; rfl, .mk t (.cons u he hv), he', hw⟩

end Piece
end MailMerge
