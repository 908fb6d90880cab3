import MailMerge.Render
import Mathlib.Data.List.Forall2

/-!
# Computations that agree

Two computations agree if from every state of the user functions they make the same calls, leave the
same state, and either both give results in a given relation or both fail with errors in a given
relation. How often the record getter is asked, and for what, may differ.
-/

namespace MailMerge

namespace RenderError

/-- Errors of the same variant. -/
def SameVariant (e f : RenderError) : Prop := e.ctorIdx = f.ctorIdx

theorem SameVariant.refl (e : RenderError) : SameVariant e e := rfl

theorem SameVariant.symm (e f : RenderError) (h : SameVariant e f) : SameVariant f e := Eq.symm h

theorem SameVariant.trans (e f g : RenderError) (h : SameVariant e f) (h' : SameVariant f g) :
    SameVariant e g := Eq.trans h h'

end RenderError

/-- Results in one relation or errors in another. -/
inductive Alike {α β : Type} (E : RenderError → RenderError → Prop) (R : α → β → Prop) :
    Except RenderError α → Except RenderError β → Prop where
  | ok {a : α} {b : β} (h : R a b) : Alike E R (.ok a) (.ok b)
  | error {e f : RenderError} (h : E e f) : Alike E R (.error e) (.error f)

theorem Alike.refl {α : Type} {E : RenderError → RenderError → Prop} (hE : ∀ e, E e e)
    (r : Except RenderError α) : Alike E Eq r r := by
  cases r with
  | ok a => exact .ok rfl
  | error e => exact .error (hE e)

namespace Event

theorem calls_append (es fs : List Event) : calls (es ++ fs) = calls es ++ calls fs :=
  List.filterMap_append

end Event

namespace Eval

variable {σ α β γ δ : Type} {E : RenderError → RenderError → Prop} {R : α → β → Prop}
  {S : γ → δ → Prop}

/-- Computations with alike results, the same calls and the same state after them. -/
def Agree (E : RenderError → RenderError → Prop) (R : α → β → Prop) (x : Eval σ α)
    (y : Eval σ β) : Prop :=
  ∀ s, Alike E R (x s).result (y s).result ∧
    Event.calls (x s).events = Event.calls (y s).events ∧ (x s).state = (y s).state

namespace Agree

theorem lift {r : Except RenderError α} {q : Except RenderError β} (h : Alike E R r q) :
    Agree E R (Eval.lift r : Eval σ α) (Eval.lift q) :=
  fun _ => ⟨h, rfl, rfl⟩

theorem pure {a : α} {b : β} (h : R a b) : Agree E R (Pure.pure a : Eval σ α) (Pure.pure b) :=
  lift (.ok h)

theorem fail {e f : RenderError} (h : E e f) :
    Agree E R (Eval.fail e : Eval σ α) (Eval.fail f : Eval σ β) :=
  lift (.error h)

theorem note {e f : Event} (h : Event.calls [e] = Event.calls [f]) :
    Agree E Eq (Eval.note e : Eval σ Unit) (Eval.note f) :=
  fun _ => ⟨.ok rfl, h, rfl⟩

theorem refl (hE : ∀ e, E e e) (x : Eval σ α) : Agree E Eq x x :=
  fun s => ⟨.refl hE (x s).result, rfl, rfl⟩

theorem symm (hE : ∀ e f, E e f → E f e) {x y : Eval σ α} (h : Agree E Eq x y) :
    Agree E Eq y x := by
  intro s
  obtain ⟨hr, hc, hs⟩ := h s
  refine ⟨?_, hc.symm, hs.symm⟩
  generalize (x s).result = r at hr ⊢
  generalize (y s).result = q at hr ⊢
  cases hr with
  | ok hab => exact .ok hab.symm
  | error he => exact .error (hE _ _ he)

theorem trans (hE : ∀ e f g, E e f → E f g → E e g) {x y z : Eval σ α} (h : Agree E Eq x y)
    (h' : Agree E Eq y z) : Agree E Eq x z := by
  intro s
  obtain ⟨hr, hc, hs⟩ := h s
  obtain ⟨hr', hc', hs'⟩ := h' s
  refine ⟨?_, hc.trans hc', hs.trans hs'⟩
  generalize (x s).result = r at hr ⊢
  generalize (y s).result = q at hr hr' ⊢
  generalize (z s).result = w at hr' ⊢
  cases hr with
  | ok hab =>
    cases hr' with
    | ok hbc => exact .ok (hab.trans hbc)
  | error he =>
    cases hr' with
    | error he' => exact .error (hE _ _ _ he he')

/-- The first computations agree, and the second ones do on related results. -/
theorem bind {x : Eval σ α} {y : Eval σ β} {f : α → Eval σ γ} {g : β → Eval σ δ}
    (h : Agree E R x y) (hf : ∀ a b, R a b → Agree E S (f a) (g b)) :
    Agree E S (x >>= f) (y >>= g) := by
  intro s
  obtain ⟨hr, hc, hs⟩ := h s
  change Alike E S (x.andThen f s).result (y.andThen g s).result ∧
    Event.calls (x.andThen f s).events = Event.calls (y.andThen g s).events ∧
      (x.andThen f s).state = (y.andThen g s).state
  unfold andThen
  cases hx : x s with
  | mk r es t =>
    cases hy : y s with
    | mk q fs u =>
      rw [hx, hy] at hr hc hs
      cases hs
      cases hr with
      | error he => exact ⟨.error he, hc, rfl⟩
      | @ok a b hab =>
        obtain ⟨hr', hc', hs'⟩ := hf a b hab t
        refine ⟨hr', ?_, hs'⟩
        rw [Event.calls_append, Event.calls_append, hc', hc]

/-- A note of something other than a call makes no difference. -/
theorem note_left {x : Eval σ α} {y : Eval σ β} {e : Event} (he : Event.calls [e] = [])
    (h : Agree E R x y) : Agree E R (do Eval.note e; x) y := by
  intro s
  obtain ⟨hr, hc, hs⟩ := h s
  refine ⟨hr, ?_, hs⟩
  change Event.calls ([e] ++ (x s).events) = _
  rw [Event.calls_append, he, hc]
  rfl

/-- Errors handed on as results are alike. -/
theorem attempt {x : Eval σ α} {y : Eval σ β} (h : Agree E R x y) :
    Agree E (Alike E R) x.attempt y.attempt := by
  intro s
  obtain ⟨hr, hc, hs⟩ := h s
  exact ⟨.ok hr, hc, hs⟩

theorem mapError {x : Eval σ α} {y : Eval σ β} {f g : RenderError → RenderError}
    (h : Agree E R x y) (hf : ∀ e e', E e e' → E (f e) (g e')) :
    Agree E R (x.mapError f) (y.mapError g) := by
  intro s
  obtain ⟨hr, hc, hs⟩ := h s
  refine ⟨?_, hc, hs⟩
  change Alike E R ((x s).result.mapError f) ((y s).result.mapError g)
  generalize (x s).result = r at hr ⊢
  generalize (y s).result = q at hr ⊢
  cases hr with
  | ok hab => exact .ok hab
  | error he => exact .error (hf _ _ he)

/-- A choice agrees if the truth values and both sides do. -/
theorem choose {x y : Eval σ Bool} {a b : Eval σ α} {a' b' : Eval σ β} (h : Agree E Eq x y)
    (ha : Agree E R a a') (hb : Agree E R b b') :
    Agree E R (do if ← x then a else b) (do if ← y then a' else b') := by
  refine h.bind ?_
  rintro v _ rfl
  cases v with
  | true => exact ha
  | false => exact hb

/-- Texts that agree still do with the same text before them. -/
theorem prepend {t : Text} {x y : Eval σ Text} (h : Agree E Eq x y) :
    Agree E Eq (do let r ← x; Pure.pure (t ++ r)) (do let r ← y; Pure.pure (t ++ r)) := by
  refine h.bind ?_
  rintro r _ rfl
  exact pure rfl

/-- Computations of texts that agree one by one agree one after the other. -/
theorem concat {f : α → Eval σ Text} {g : β → Eval σ Text} {as : List α} {bs : List β}
    (h : List.Forall₂ (fun a b => Agree E Eq (f a) (g b)) as bs) :
    Agree E Eq (Eval.concat f as) (Eval.concat g bs) := by
  induction h with
  | nil => exact pure rfl
  | cons hab _ ih =>
    refine bind hab ?_
    rintro t _ rfl
    exact prepend ih

end Agree
end Eval

/-! ### Nodes -/

namespace Header

/-- The scopes of rounds of two loops that are about the same element, each with the names of its
loop. -/
structure Rounds (h h' : Header) (s s' : Scope) : Prop where
  names : s.item = h.item ∧ s.index = h.index
  renamed : s' = ⟨h'.item, h'.index, s.element, s.kind, s.binding⟩

/-- The scopes are the same if the loops give them the same names. -/
theorem Rounds.eq {h h' : Header} {s s' : Scope} (hs : h.Rounds h' s s') (hi : h'.item = h.item)
    (hx : h'.index = h.index) : s' = s := by
  rw [hs.renamed, hi, hx, ← hs.names.1, ← hs.names.2]

/-- Loops over the same data have corresponding rounds, or both cannot run over it. -/
theorem rounds_alike {E : RenderError → RenderError → Prop} (hE : ∀ e, E e e) {h h' : Header}
    (ht : ∀ k, E (.notIterable h.target k) (.notIterable h'.target k)) (raw : Text) (kind : Kind) :
    Alike E (List.Forall₂ (Rounds h h')) (h.rounds raw kind) (h'.rounds raw kind) := by
  cases kind with
  | array =>
    unfold rounds
    cases Record.elements (Utf8.encode raw) with
    | error e => exact .error (hE e)
    | ok es =>
      refine .ok ?_
      rw [List.forall₂_map_left_iff, List.forall₂_map_right_iff, List.forall₂_same]
      exact fun _ _ => ⟨⟨rfl, rfl⟩, rfl⟩
  | object =>
    unfold rounds
    cases Record.members (Utf8.encode raw) with
    | error e => exact .error (hE e)
    | ok ms =>
      refine .ok ?_
      rw [List.forall₂_map_left_iff, List.forall₂_map_right_iff, List.forall₂_same]
      exact fun _ _ => ⟨⟨rfl, rfl⟩, rfl⟩
  | _ => exact .error (ht _)

end Header

namespace Outline

open Eval (Agree)

variable {σ : Type} {E : RenderError → RenderError → Prop} {c d : Context σ} {n n' : Outline}

theorem agree_text (t : Text) (hn : Agree E Eq (n.render c) (n'.render d)) :
    Agree E Eq ((Outline.text t n).render c) ((Outline.text t n').render d) :=
  (Agree.note rfl).bind fun _ _ _ => hn.prepend

theorem agree_emit {e e' : Element}
    (he : Agree E Eq ((e.text c).mapError e.reportMissing) ((e'.text d).mapError e'.reportMissing))
    (hn : Agree E Eq (n.render c) (n'.render d)) :
    Agree E Eq ((Outline.emit e n).render c) ((Outline.emit e' n').render d) := by
  refine (Agree.note rfl).bind fun _ _ _ => he.bind ?_
  rintro t _ rfl
  exact hn.prepend

theorem agree_branch {b b' : Condition} {y z y' z' : Outline}
    (hb : Agree E Eq (b.holds c) (b'.holds d)) (hy : Agree E Eq (y.render c) (y'.render d))
    (hz : Agree E Eq (z.render c) (z'.render d)) (hn : Agree E Eq (n.render c) (n'.render d)) :
    Agree E Eq ((Outline.branch b y z n).render c) ((Outline.branch b' y' z' n').render d) := by
  refine (Agree.note rfl).bind fun _ _ _ => (hb.choose hy hz).bind ?_
  rintro t _ rfl
  exact hn.prepend

/-- Loops agree if their targets and what follows them do, and so do their bodies in corresponding
rounds. -/
theorem agree_loop (hE : ∀ e, E e e) {h h' : Header} {b b' : Outline}
    (ht : ∀ k, E (.notIterable h.target k) (.notIterable h'.target k))
    (hl : Agree E Eq (c.lookup h.target) (d.lookup h'.target))
    (hb : ∀ s s', h.Rounds h' s s' → Agree E Eq (b.render (c.enter s)) (b'.render (d.enter s')))
    (hn : Agree E Eq (n.render c) (n'.render d)) :
    Agree E Eq ((Outline.loop h b n).render c) ((Outline.loop h' b' n').render d) := by
  refine (Agree.note rfl).bind fun _ _ _ => hl.bind ?_
  rintro ⟨raw, kind⟩ _ rfl
  refine (Agree.lift (Header.rounds_alike hE ht raw kind)).bind fun scopes scopes' hs => ?_
  refine (Agree.concat (hs.imp fun s s' h => ?_)).bind ?_
  · exact (Agree.note rfl).bind fun _ _ _ => hb s s' h
  · rintro t _ rfl
    exact hn.prepend

end Outline
end MailMerge
