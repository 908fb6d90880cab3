import MailMerge.Template.Parser

/-!
# Balanced templates

The grammar of templates over blocks that have been read, `Balanced`, and what it says about the
outline that it derives. Writing the outline down again gives the blocks back, but for an `else`
without anything before its `end`; the nodes of the stored outline are the blocks that are neither
`else` nor `end`, one each and in their order; and a walk through the stored links meets the nodes
in the order of their numbers.
-/

namespace MailMerge

/-! ### The grammar -/

/-- A balanced sequence of blocks and the outline it derives:
`(text | emit | if template [else template] end | for template end)*`. -/
inductive Balanced : List Piece → Outline → Prop where
  | nil : Balanced [] .done
  | text {ps : List Piece} {o : Outline} (t : Text) (rest : Balanced ps o) :
      Balanced (.text t :: ps) (.text t o)
  | emit {ps : List Piece} {o : Outline} (e : Element) (rest : Balanced ps o) :
      Balanced (.statement (.emit e) :: ps) (.emit e o)
  | if_ {ys ps : List Piece} {y o : Outline} (c : Condition) (yes : Balanced ys y)
      (rest : Balanced ps o) :
      Balanced (.statement (.if_ c) :: (ys ++ .statement .end_ :: ps)) (.branch c y .done o)
  | ifElse {ys zs ps : List Piece} {y z o : Outline} (c : Condition) (yes : Balanced ys y)
      (no : Balanced zs z) (rest : Balanced ps o) :
      Balanced (.statement (.if_ c) ::
        (ys ++ .statement .else_ :: (zs ++ .statement .end_ :: ps))) (.branch c y z o)
  | for_ {ys ps : List Piece} {y o : Outline} (h : Header) (body : Balanced ys y)
      (rest : Balanced ps o) :
      Balanced (.statement (.for_ h) :: (ys ++ .statement .end_ :: ps)) (.loop h y o)

namespace Piece

/-- Whether a block is an `else`. -/
def isElse : Piece → Bool
  | .statement .else_ => true
  | _ => false

/-- Whether a block is an `end`. -/
def isEnd : Piece → Bool
  | .statement .end_ => true
  | _ => false

/-- Whether a block makes a node. -/
def makesNode (p : Piece) : Bool := !p.isElse && !p.isEnd

/-- The blocks without every `else` that is directly followed by an `end`. -/
def dropEmptyElse : List Piece → List Piece
  | [] => []
  | p :: ps =>
    if p.isElse && ps.head?.any isEnd then dropEmptyElse ps else p :: dropEmptyElse ps

theorem dropEmptyElse_cons {p : Piece} (h : p.isElse = false) (ps : List Piece) :
    dropEmptyElse (p :: ps) = p :: dropEmptyElse ps := by
  rw [dropEmptyElse, h]
  rfl

end Piece

namespace Balanced

/-- One balanced sequence after another is balanced. -/
theorem append {ps qs : List Piece} {o r : Outline} (h : Balanced ps o) (hq : Balanced qs r) :
    Balanced (ps ++ qs) (o ++ r) := by
  induction h with
  | nil => exact hq
  | text t _ ih => exact .text t ih
  | emit e _ ih => exact .emit e ih
  | if_ c yes _ _ ih =>
    rw [List.cons_append, List.append_assoc]
    exact .if_ c yes ih
  | ifElse c yes no _ _ _ ih =>
    rw [List.cons_append, List.append_assoc, List.cons_append, List.append_assoc]
    exact .ifElse c yes no ih
  | for_ h body _ _ ih =>
    rw [List.cons_append, List.append_assoc]
    exact .for_ h body ih

end Balanced

/-! ### Writing an outline down -/

namespace Outline

/-- The blocks of an outline; an `if` whose second branch is empty is written without `else`. -/
def linearise : Outline → List Piece
  | .done => []
  | .text t n => .text t :: n.linearise
  | .emit e n => .statement (.emit e) :: n.linearise
  | .branch c y z n =>
    let no := z.linearise
    .statement (.if_ c) :: (y.linearise ++
      ((if no.isEmpty then [] else .statement .else_ :: no) ++
        .statement .end_ :: n.linearise))
  | .loop h b n => .statement (.for_ h) :: (b.linearise ++ .statement .end_ :: n.linearise)

/-- The blocks of an outline that make its nodes. -/
def makers : Outline → List Piece
  | .done => []
  | .text t n => .text t :: n.makers
  | .emit e n => .statement (.emit e) :: n.makers
  | .branch c y z n => .statement (.if_ c) :: (y.makers ++ (z.makers ++ n.makers))
  | .loop h b n => .statement (.for_ h) :: (b.makers ++ n.makers)

end Outline

namespace Balanced

open Piece

/-- The outline of a balanced sequence, written down again, is the sequence without the empty
`else`s, whatever follows it. -/
theorem dropEmptyElse_append {ps : List Piece} {o : Outline} (h : Balanced ps o)
    (rest : List Piece) : dropEmptyElse (ps ++ rest) = o.linearise ++ dropEmptyElse rest := by
  induction h generalizing rest with
  | nil => rfl
  | text t _ ih =>
    rw [List.cons_append, dropEmptyElse_cons rfl, ih]
    rfl
  | emit e _ ih =>
    rw [List.cons_append, dropEmptyElse_cons rfl, ih]
    rfl
  | if_ c _ _ ihy ih =>
    rw [List.cons_append, dropEmptyElse_cons rfl, List.append_assoc, ihy, List.cons_append,
      dropEmptyElse_cons rfl, ih]
    simp [Outline.linearise]
  | @ifElse ys zs ps y z o c _ no _ ihy ihz ih =>
    have hend : dropEmptyElse (zs ++ .statement .end_ :: (ps ++ rest)) =
        z.linearise ++ .statement .end_ :: (o.linearise ++ dropEmptyElse rest) := by
      rw [ihz, dropEmptyElse_cons rfl, ih]
    have helse : dropEmptyElse (.statement .else_ :: (zs ++ .statement .end_ :: (ps ++ rest))) =
        (if z.linearise.isEmpty then [] else .statement .else_ :: z.linearise) ++
          .statement .end_ :: (o.linearise ++ dropEmptyElse rest) := by
      rw [dropEmptyElse, hend]
      cases no with
      | nil => rfl
      | _ => rfl
    rw [List.cons_append, dropEmptyElse_cons rfl, List.append_assoc, ihy, List.cons_append,
      List.append_assoc, List.cons_append, helse]
    simp [Outline.linearise]
  | for_ h _ _ ihb ih =>
    rw [List.cons_append, dropEmptyElse_cons rfl, List.append_assoc, ihb, List.cons_append,
      dropEmptyElse_cons rfl, ih]
    simp [Outline.linearise]

theorem dropEmptyElse_eq {ps : List Piece} {o : Outline} (h : Balanced ps o) :
    dropEmptyElse ps = o.linearise := by
  have := h.dropEmptyElse_append []
  rwa [List.append_nil, dropEmptyElse, List.append_nil] at this

/-- The blocks of a balanced sequence that make nodes are those of its outline. -/
theorem filter_makesNode {ps : List Piece} {o : Outline} (h : Balanced ps o) :
    ps.filter makesNode = o.makers := by
  induction h with
  | nil => rfl
  | text t _ ih => exact congrArg _ ih
  | emit e _ ih => exact congrArg _ ih
  | if_ c _ _ ihy ih =>
    rw [List.filter_cons_of_pos rfl, List.filter_append, List.filter_cons_of_neg Bool.false_ne_true,
      ihy, ih]
    rfl
  | ifElse c _ _ _ ihy ihz ih =>
    rw [List.filter_cons_of_pos rfl, List.filter_append, List.filter_cons_of_neg Bool.false_ne_true,
      List.filter_append, List.filter_cons_of_neg Bool.false_ne_true, ihy, ihz, ih]
    rfl
  | for_ h _ _ ihb ih =>
    rw [List.filter_cons_of_pos rfl, List.filter_append, List.filter_cons_of_neg Bool.false_ne_true,
      ihb, ih]
    rfl

end Balanced

/-! ### Stored outlines -/

/-- The block that makes a node. -/
def Node.piece (n : Node) : Piece :=
  match n.content with
  | .text t => .text t
  | .emit e => .statement (.emit e)
  | .branch c _ _ => .statement (.if_ c)
  | .loop h _ => .statement (.for_ h)

/-- The stored nodes of an outline are made by its blocks, in their order. -/
theorem Outline.map_piece_layout (o : Outline) (k : Nat) :
    (o.layout k).map Node.piece = o.makers := by
  induction o generalizing k with
  | done => rfl
  | text t n ih => rw [layout, List.map_cons, ih]; rfl
  | emit e n ih => rw [layout, List.map_cons, ih]; rfl
  | branch c y z n ihy ihz ihn =>
    rw [layout, List.map_cons, List.map_append, List.map_append, ihy, ihz, ihn,
      List.append_assoc]
    rfl
  | loop h b n ihb ihn =>
    rw [layout, List.map_cons, List.map_append, ihb, ihn]
    rfl

namespace Template

/-- The numbers of the nodes that a walk through the links meets: a node, the chains of its
branches or its body, then its next sibling. -/
def walk (nodes : Array Node) : Nat → Option Nat → List Nat
  | 0, _ => []
  | _ + 1, none => []
  | fuel + 1, some i =>
    match nodes[i]? with
    | none => []
    | some node =>
      let inner :=
        match node.content with
        | .branch _ y z => walk nodes fuel y ++ walk nodes fuel z
        | .loop _ b => walk nodes fuel b
        | _ => []
      i :: (inner ++ walk nodes fuel node.next)

/-- The numbers of the nodes of a template in the order of its structure. -/
def order (t : Template) : List Nat := walk t.nodes.toArray t.size t.root

/-- A walk through a stored chain counts its nodes. -/
theorem walk_stored {nodes : Array Node} {o : Outline} :
    ∀ (fuel : Nat) {k : Nat}, Stored nodes k (o.layout k) → o.size ≤ fuel →
      walk nodes fuel (o.head k) = List.range' k o.size := by
  induction o with
  | done =>
    rintro (_ | fuel) k - -
    · rfl
    · rfl
  | text t n ih =>
    rintro (_ | fuel) k h hf
    · cases hf
    · change walk nodes (fuel + 1) (some k) = _
      simp only [walk, h.head, ih fuel h.tail (Nat.le_of_succ_le_succ hf)]
      rfl
  | emit e n ih =>
    rintro (_ | fuel) k h hf
    · cases hf
    · change walk nodes (fuel + 1) (some k) = _
      simp only [walk, h.head, ih fuel h.tail (Nat.le_of_succ_le_succ hf)]
      rfl
  | branch c y z n ihy ihz ihn =>
    rintro (_ | fuel) k h hf
    · cases hf
    · change walk nodes (fuel + 1) (some k) = _
      simp only [Outline.size] at hf
      obtain ⟨hy, hz, hn⟩ := h.branch
      have hy := ihy fuel hy (by omega)
      have hz := ihz fuel hz (by omega)
      have hn := ihn fuel hn (by omega)
      simp only [walk, h.head, hy, hz, hn, List.range'_append_1]
      rw [Nat.add_assoc (k + 1), List.range'_append_1]
      rfl
  | loop hd b n ihb ihn =>
    rintro (_ | fuel) k h hf
    · cases hf
    · change walk nodes (fuel + 1) (some k) = _
      simp only [Outline.size] at hf
      obtain ⟨hb, hn⟩ := h.loop
      have hb := ihb fuel hb (by omega)
      have hn := ihn fuel hn (by omega)
      simp only [walk, h.head, hb, hn, List.range'_append_1]
      rfl

theorem order_ofOutline (o : Outline) : (ofOutline o).order = List.range (ofOutline o).size := by
  have hs : (ofOutline o).size = o.size := o.length_layout 0
  rw [order, hs, List.range_eq_range']
  exact walk_stored _ (stored_ofOutline o) (Nat.le_refl _)

end Template
end MailMerge
