import MailMerge.Proofs.Juxtaposition
import MailMerge.Proofs.ReplacedPatterns

/-!
# Sources with other patterns in them

A source is rewritten expression by expression, and its literal texts stay. What stands for a
pattern may depend on where the expression stands, so that a rewriting carries a state along, which
the blocks that it passes may change. What has been rewritten reads as the same blocks, each with
its patterns replaced.
-/

namespace MailMerge

/-! ### Blocks -/

namespace Piece

/-- The block with its patterns replaced. -/
def mapPatterns (f : Text → Text) : Piece → Piece
  | .text t => .text t
  | .statement s => .statement (s.mapPatterns f)

/-- An expression that has been rewritten is read as its statement with the patterns replaced. -/
theorem read_rewrites {f : Text → Text} {e e' : Text} {p : Piece} (he : e ≠ [])
    (hp : read (.between 1 e) = .ok p) (hr : Statement.Rewrites f e e') :
    read (.between 1 e') = .ok (p.mapPatterns f) := by
  obtain ⟨ts, us, hlex, hlex', hs⟩ := hr
  obtain ⟨s, rfl⟩ := exists_statement_of_read he hp
  obtain ⟨ts', hts, hbody⟩ := Statement.parse_eq_ok_iff.mp (read_statement_iff.mp hp)
  cases hlex.symm.trans hts
  have hread := Statement.body_relocate (Statement.body_replacePatterns (f := f) hbody) hs.symm
  exact read_statement_iff.mpr (Statement.parse_eq_ok_iff.mpr ⟨us, hlex', hread⟩)

end Piece

/-! ### Rewriting block by block -/

/-- A way to replace patterns block by block, with a state that the blocks may change. -/
structure Rewriting (S : Type) where
  /-- What stands for a pattern. -/
  replace : S → Text → Text
  /-- The state behind a block. -/
  step : S → Piece → S
  step_text : ∀ s t, step s (.text t) = s

namespace Rewriting

variable {S : Type} (w : Rewriting S)

/-- The blocks with their patterns replaced. -/
def blocks : S → List Piece → List Piece
  | _, [] => []
  | s, p :: ps => p.mapPatterns (w.replace s) :: blocks (w.step s p) ps

/-- The state behind an expression. -/
def behind (s : S) (e : Text) : S :=
  match Piece.read (.between 1 e) with
  | .ok p => w.step s p
  | .error _ => s

/-- Pairs of an expression and a literal text, the expressions rewritten. An empty one, which stands
for a marker, stays. -/
inductive Pairs : S → List Text → List Text → Prop where
  | nil (s : S) : Pairs s [] []
  | marker {s : S} {t : Text} {r r' : List Text} (h : Pairs s r r') :
      Pairs s ([] :: t :: r) ([] :: t :: r')
  | expression {s : S} {e e' t : Text} {r r' : List Text} (he : e ≠ [])
      (hr : Statement.Rewrites (w.replace s) e e') (h : Pairs (w.behind s e) r r') :
      Pairs s (e :: t :: r) (e' :: t :: r')

/-- The second source is the first one, rewritten. -/
def Rewrites (s : S) (source source' : Text) : Prop :=
  ∃ t r r', source.pieces marker = t :: r ∧ source'.pieces marker = t :: r' ∧ w.Pairs s r r'

variable {w}

theorem blocks_literal (s : S) (t : Text) (ps : List Piece) :
    w.blocks s (Piece.literal t ++ ps) = Piece.literal t ++ w.blocks s ps := by
  unfold Piece.literal
  split
  · rfl
  · change _ :: w.blocks (w.step s (.text t)) ps = _
    rw [w.step_text]
    rfl

theorem blocks_append (s : S) (ps qs : List Piece) :
    w.blocks s (ps ++ qs) = w.blocks s ps ++ w.blocks (ps.foldl w.step s) qs := by
  induction ps generalizing s with
  | nil => rfl
  | cons p ps ih => exact congrArg (_ :: ·) (ih _)

/-- What has been rewritten spells the blocks with their patterns replaced. -/
theorem Pairs.spells {s : S} {r r' : List Text} {ps : List Piece} (h : w.Pairs s r r')
    (hp : Piece.Pairs r ps) : Piece.Pairs r' (w.blocks s ps) := by
  induction h generalizing ps with
  | nil s =>
    cases hp
    exact .nil
  | @marker s t r r' _ ih =>
    cases hp with
    | @cons _ _ p qs _ he hq =>
      cases he
      rw [blocks, w.step_text, blocks_literal]
      exact .cons t rfl (ih hq)
  | @expression s e e' t r r' hne hr _ ih =>
    cases hp with
    | @cons _ _ p qs _ he hq =>
      have hstep : w.behind s e = w.step s p := by rw [behind, he]
      rw [blocks, blocks_literal, ← hstep]
      exact .cons t (Piece.read_rewrites hne he hr) (ih hq)

theorem Rewrites.spells {s : S} {source source' : Text} {ps : List Piece}
    (h : w.Rewrites s source source') (hp : Piece.Spells (source.pieces marker) ps) :
    Piece.Spells (source'.pieces marker) (w.blocks s ps) := by
  obtain ⟨t, r, r', hr, hr', hpairs⟩ := h
  rw [hr] at hp
  obtain ⟨qs, hq, rfl⟩ := Piece.spells_cons.mp hp
  rw [hr', blocks_literal]
  exact .mk t (hpairs.spells hq)

/-! ### The same replacement everywhere -/

/-- The rewriting that replaces patterns alike in all blocks. -/
def uniform (f : Text → Text) : Rewriting Unit where
  replace _ := f
  step s _ := s
  step_text _ _ := rfl

theorem blocks_uniform (f : Text → Text) (ps : List Piece) :
    (uniform f).blocks () ps = ps.map (Piece.mapPatterns f) := by
  induction ps with
  | nil => rfl
  | cons p ps ih => exact congrArg (_ :: ·) ih

end Rewriting

/-- Balanced blocks with their patterns replaced. -/
theorem Balanced.mapPatterns {f : Text → Text} {ps : List Piece} {o : Outline}
    (h : Balanced ps o) : Balanced (ps.map (Piece.mapPatterns f)) (o.mapPatterns f) := by
  induction h with
  | nil => exact .nil
  | text t _ ih => exact .text t ih
  | emit e _ ih => exact .emit _ ih
  | if_ c _ _ ihy ih =>
    rw [List.map_cons, List.map_append, List.map_cons]
    exact .if_ _ ihy ih
  | ifElse c _ _ _ ihy ihz ih =>
    rw [List.map_cons, List.map_append, List.map_cons, List.map_append, List.map_cons]
    exact .ifElse _ ihy ihz ih
  | for_ h _ _ ihb ih =>
    rw [List.map_cons, List.map_append, List.map_cons]
    exact .for_ _ ihb ih

/-- A template with other paths in the place of its patterns is the template with its patterns
replaced. -/
theorem Template.parse_uniform {f : Text → Text} {source source' : Text} {t : Template}
    (h : parse source = .ok t) (hr : (Rewriting.uniform f).Rewrites () source source') :
    parse source' = .ok (ofOutline (t.outline.mapPatterns f)) := by
  obtain ⟨ps, o, hs, hb, rfl⟩ := parse_eq_ok_iff.mp h
  have hspells := hr.spells hs
  rw [Rewriting.blocks_uniform] at hspells
  rw [outline_ofOutline]
  exact parse_eq_ok_iff.mpr ⟨_, _, hspells, hb.mapPatterns, rfl⟩

/-! ### Loops -/

namespace Template

/-- The source of a loop: a header, a body and an end. -/
def loopSource (header body ending : Text) : Text :=
  marker :: (header ++ marker :: (body ++ marker :: (ending ++ [marker])))

/-- The pieces of a source with a loop in it. -/
theorem pieces_loopSource {header ending : Text} (hh : marker ∉ header) (he : marker ∉ ending)
    (before body rest : Text) :
    (before ++ (loopSource header body ending ++ rest)).pieces marker =
      before.pieces marker ++ header :: (body.pieces marker ++ ending :: rest.pieces marker) := by
  have hsource : before ++ (loopSource header body ending ++ rest) =
      before ++ marker :: (header ++ marker :: (body ++ marker :: (ending ++ marker :: rest))) := by
    simp [loopSource]
  rw [hsource]
  simp only [Text.pieces_mark, Text.pieces_of_not_mem hh, Text.pieces_of_not_mem he]
  rfl

end Template
end MailMerge
