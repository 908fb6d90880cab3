import MailMerge.Proofs.LoopUnrolling
import MailMerge.Proofs.RewrittenSources

/-!
# The source of an unrolled loop

The source of a loop is that of its body between a header and an end. Copies of the source of the
body, in each of them the path of an element for the item, are in a row the source of a template,
whose outline is the unrolling of the loop but for the texts in which the copies meet.
-/

namespace MailMerge.Template

open Eval (Agree)

variable {σ : Type} {item target : Text} {body ending : Text} {b : Template}

/-- A body between a header and an end is a loop. -/
theorem parse_loopSource {header : Text} {h : Header} (hm : marker ∉ header)
    (hh : Statement.parse header 1 = .ok (.for_ h)) (hm' : marker ∉ ending)
    (he : Statement.parse ending 1 = .ok .end_) (hb : parse body = .ok b) :
    parse (loopSource header body ending) = .ok (ofOutline (.loop h b.outline .done)) := by
  obtain ⟨ps, o, hs, hbal, rfl⟩ := parse_eq_ok_iff.mp hb
  have hempty : Piece.Spells (Text.pieces marker []) [] := .mk [] .nil
  have hpieces := pieces_loopSource hm hm' [] body []
  rw [List.nil_append, List.append_nil] at hpieces
  rw [outline_ofOutline]
  refine parse_eq_ok_iff.mpr ⟨_, _, ?_, .for_ h hbal .nil, rfl⟩
  rw [hpieces]
  exact hempty.around (Piece.read_statement_iff.mpr hh)
    (hs.around (Piece.read_statement_iff.mpr he) hempty)

/-- Copies of a body, in each of them the path that a selector gives for the item, are a template
whose outline is the unrolling, but for the texts in which they meet. -/
theorem parse_unrolled (hb : parse body = .ok b) {selectors copies : List Text}
    (hc : List.Forall₂ (fun s copy =>
      (Rewriting.uniform (Pattern.replaceHead item (target ++ s))).Rewrites () body copy)
      selectors copies) :
    ∃ u, parse copies.flatten = .ok u ∧
      u.outline.joinTexts = (Outline.unroll item target b.outline selectors).joinTexts := by
  refine parse_flatten ?_
  rw [List.forall₂_map_right_iff]
  exact hc.flip.imp fun copy s h => parse_uniform hb h

/-- In the copy for the first element, its path stands for the item. -/
example : (Rewriting.uniform (Pattern.replaceHead "x".toList "a[0]".toList)).Rewrites ()
    "$f(x.b)$, $$".toList "$f(a[0].b)$, $$".toList :=
  ⟨_, _, _, rfl, rfl, .expression (by decide) ⟨_, _, rfl, rfl, rfl⟩ (.marker (.nil ()))⟩

/-- The source of a loop over an array or an object of the record and copies of its body in a row,
one for each element or member with its path for the item, give the same text and make the same
calls, or both fail with errors of the same variant. -/
theorem loopSource_agrees (host : Option (Host σ)) {record : Bytes} {document v : Json}
    {header : Text} {copies : List Text} (hm : marker ∉ header)
    (hh : Statement.parse header 1 = .ok (.for_ ⟨item, none, target⟩))
    (hm' : marker ∉ ending) (he : Statement.parse ending 1 = .ok .end_)
    (hb : parse body = .ok b) (hitem : item ∉ b.outline.names)
    (hhead : ∀ n ∈ b.outline.names, (Pattern.segments target).head? ≠ some n)
    (hr : Json.read record = .ok document) (hi : document.Whole)
    (hsize : record.length < Pattern.indexLimit)
    (hv : Record.resolve document target = some v) (hu : v.Unrollable)
    (hc : List.Forall₂ (fun s copy =>
      (Rewriting.uniform (Pattern.replaceHead item (target ++ s))).Rewrites () body copy)
      v.selectors copies) :
    ∃ t u, parse (loopSource header body ending) = .ok t ∧ parse copies.flatten = .ok u ∧
      Agree RenderError.SameVariant Eq (t.render (.ofRecord record host))
        (u.render (.ofRecord record host)) := by
  have ht := parse_loopSource hm hh hm' he hb
  obtain ⟨u, hu', hjoin⟩ := parse_unrolled hb hc
  have hw := wellFormed_of_parse ht
  rw [outline_ofOutline] at hw
  refine ⟨_, u, ht, hu', ?_⟩
  rw [render, render, outline_ofOutline]
  exact .trans RenderError.SameVariant.trans
    (Outline.loop_agree_unroll host hr hi hsize hv hu hw hitem hhead)
    (Outline.agree_of_joinTexts hjoin.symm _)

end MailMerge.Template
