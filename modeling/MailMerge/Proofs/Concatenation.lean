import MailMerge.Proofs.Agreement

/-!
# Templates one after the other

Rendering a chain of nodes after another gives the one text after the other. Where templates are
written one after the other, the last text of one and the first text of the next become one node;
`joinTexts` is the outline with all such texts joined, and it renders like the outline itself.
-/

namespace MailMerge.Outline

open Eval (Agree)

variable {σ : Type} {E : RenderError → RenderError → Prop}

/-! ### Concatenation -/

/-- A chain after another renders as the two texts, one after the other. -/
theorem render_append (a b : Outline) (c : Context σ) :
    (a ++ b).render c = (do let t ← a.render c; let u ← b.render c; pure (t ++ u)) := by
  change (a.append b).render c = _
  induction a with
  | done => simp only [append, render, pure_bind, List.nil_append, bind_pure]
  | text t n ih => simp only [append, render, ih, bind_assoc, pure_bind, List.append_assoc]
  | emit e n ih => simp only [append, render, ih, bind_assoc, pure_bind, List.append_assoc]
  | branch b y z n _ _ ih =>
    simp only [append, render, ih, bind_assoc, pure_bind, List.append_assoc]
  | loop h b n _ ih => simp only [append, render, ih, bind_assoc, pure_bind, List.append_assoc]

/-- One chain after the other. -/
def sequence (os : List Outline) : Outline := os.foldr (· ++ ·) .done

theorem render_sequence (os : List Outline) (c : Context σ) :
    (sequence os).render c = Eval.concat (fun o => o.render c) os := by
  induction os with
  | nil => rfl
  | cons o os ih =>
    change (o ++ sequence os).render c = _
    rw [render_append, ih]
    rfl

/-! ### Texts side by side -/

/-- A text before a chain, as a part of its first node if that is a text. -/
def prependText (t : Text) : Outline → Outline
  | .text u n => .text (t ++ u) n
  | o => .text t o

/-- The outline with texts side by side joined to one. -/
def joinTexts : Outline → Outline
  | .done => .done
  | .text t n => prependText t n.joinTexts
  | .emit e n => .emit e n.joinTexts
  | .branch c y z n => .branch c y.joinTexts z.joinTexts n.joinTexts
  | .loop h b n => .loop h b.joinTexts n.joinTexts

/-- It makes no difference whether a text before a text is a node of its own. -/
theorem prependText_agree (hE : ∀ e, E e e) (t : Text) (o : Outline) (c : Context σ) :
    Agree E Eq ((Outline.text t o).render c) ((prependText t o).render c) := by
  cases o with
  | text u n =>
    simp only [prependText, render, bind_assoc, pure_bind, List.append_assoc]
    exact (Agree.note rfl).bind fun _ _ _ => .note_left rfl (.refl hE _)
  | _ => exact .refl hE _

/-- An outline renders like the one with its texts joined. -/
theorem joinTexts_agree (hE : ∀ e, E e e) (hE' : ∀ e f g, E e f → E f g → E e g) :
    ∀ (o : Outline) (c : Context σ), Agree E Eq (o.render c) (o.joinTexts.render c) := by
  intro o
  induction o with
  | done => exact fun _ => .refl hE _
  | text t n ih =>
    intro c
    exact Agree.trans hE' (agree_text t (ih c)) (prependText_agree hE t n.joinTexts c)
  | emit e n ih => exact fun c => agree_emit (.refl hE _) (ih c)
  | branch b y z n ihy ihz ihn =>
    exact fun c => agree_branch (.refl hE (b.holds c)) (ihy c) (ihz c) (ihn c)
  | loop h b n ihb ihn =>
    intro c
    refine agree_loop hE (fun _ => hE _) (.refl hE (c.lookup h.target)) ?_ (ihn c)
    intro s s' hs
    obtain rfl := hs.eq rfl rfl
    exact ihb (c.enter s')

/-- Outlines that only differ in where their texts are cut agree. -/
theorem agree_of_joinTexts {a b : Outline} (h : a.joinTexts = b.joinTexts) (c : Context σ) :
    Agree RenderError.SameVariant Eq (a.render c) (b.render c) := by
  have hjoin := fun o : Outline =>
    o.joinTexts_agree RenderError.SameVariant.refl RenderError.SameVariant.trans c
  refine .trans RenderError.SameVariant.trans (hjoin a) ?_
  rw [h]
  exact .symm RenderError.SameVariant.symm (hjoin b)

theorem prependText_append (t u : Text) (o : Outline) :
    prependText (t ++ u) o = prependText t (prependText u o) := by
  cases o with
  | text v n => simp only [prependText, List.append_assoc]
  | _ => rfl

/-- Only where texts are cut in a chain matters for where they are cut behind another one. -/
theorem joinTexts_append (a : Outline) {b c : Outline} (h : b.joinTexts = c.joinTexts) :
    (a ++ b).joinTexts = (a ++ c).joinTexts := by
  change (a.append b).joinTexts = (a.append c).joinTexts
  induction a with
  | done => exact h
  | text t n ih => rw [append, append, joinTexts, joinTexts, ih]
  | emit e n ih => rw [append, append, joinTexts, joinTexts, ih]
  | branch c y z n _ _ ih => rw [append, append, joinTexts, joinTexts, ih]
  | loop h b n _ ih => rw [append, append, joinTexts, joinTexts, ih]

end MailMerge.Outline
