import MailMerge.Proofs.Juxtaposition
import MailMerge.Proofs.MacroLines

/-!
# Texts as templates

A text with every marker doubled is a template that gives the text itself. For a single character
this is read off the parser, and templates one after the other give one text after the other. No
line of such a template is taken for the definition of a macro, since the markers at its beginning
come in pairs.
-/

namespace MailMerge

/-- A character as templates write it: a marker is doubled. -/
def Block.escape (c : Char) : Text := if c = marker then [marker, marker] else [c]

namespace Template

/-- The template that writes a text. -/
def verbatim (t : Text) : Text := t.flatMap Block.escape

theorem verbatim_marker (t : Text) :
    verbatim (marker :: t) = marker :: marker :: verbatim t := rfl

theorem verbatim_cons {c : Char} (h : c ≠ marker) (t : Text) :
    verbatim (c :: t) = c :: verbatim t := by
  rw [verbatim, List.flatMap_cons, Block.escape, if_neg h]
  rfl

/-! ### Lines -/

/-- The lines of such a template write the lines of the text. -/
theorem lines_verbatim (t : Text) : (verbatim t).lines = t.lines.map verbatim := by
  fun_induction Text.lines t with
  | case1 => rfl
  | case2 r ih =>
    rw [verbatim_cons (by decide), Text.lines, if_pos rfl, ih]
    rfl
  | case3 c r hc hr ih =>
    rw [hr] at ih
    by_cases hm : c = marker
    · rw [hm, verbatim_marker, Text.lines, if_neg (by decide), Text.lines, if_neg (by decide), ih]
      rfl
    · rw [verbatim_cons hm, Text.lines, if_neg hc, ih, List.map_singleton, verbatim_cons hm]
      rfl
  | case4 c r hc l ls hr ih =>
    rw [hr] at ih
    by_cases hm : c = marker
    · rw [hm, verbatim_marker, Text.lines, if_neg (by decide), Text.lines, if_neg (by decide), ih]
      rfl
    · rw [verbatim_cons hm, Text.lines, if_neg hc, ih, List.map_cons, List.map_cons,
        verbatim_cons hm]

/-- No line of such a template begins with three markers and a space. -/
theorem not_lead_prefix_verbatim (l : Text) : ¬ Macros.lead <+: verbatim l := by
  rintro ⟨r, h⟩
  have hcons : ∀ {c : Char} {u v : Text}, c :: u = verbatim v → ∃ d w, v = d :: w := by
    rintro c u (_ | ⟨d, w⟩) h
    · cases h
    · exact ⟨d, w, rfl⟩
  obtain ⟨c, m, rfl⟩ := hcons h
  by_cases hc : c = marker
  · subst hc
    -- the third marker begins another pair, which the space breaks
    have htail : '$' :: ' ' :: r = verbatim m := (List.cons.inj (List.cons.inj h).2).2
    obtain ⟨d, n, rfl⟩ := hcons htail
    by_cases hd : d = marker
    · subst hd
      cases htail
    · rw [verbatim_cons hd] at htail
      exact hd (List.cons.inj htail).1.symm
  · rw [verbatim_cons hc] at h
    exact hc (List.cons.inj h).1.symm

theorem definition?_verbatim {t line : Text} (h : line ∈ (verbatim t).lines) :
    Macros.definition? line = none := by
  rw [lines_verbatim] at h
  obtain ⟨l, -, rfl⟩ := List.mem_map.mp h
  cases hd : Macros.definition? (verbatim l) with
  | none => rfl
  | some d => exact absurd (Macros.lead_prefix hd) (not_lead_prefix_verbatim l)

/-! ### What is rendered -/

/-- A source is a template that gives a text in every context, and asks and calls nothing. -/
def Gives (source text : Text) : Prop :=
  ∃ t, parse source = .ok t ∧ ∀ {σ : Type} (ctx : Context σ), (t.render ctx).quiet = pure text

theorem Gives.append {s₁ s₂ u₁ u₂ : Text} (h₁ : Gives s₁ u₁) (h₂ : Gives s₂ u₂) :
    Gives (s₁ ++ s₂) (u₁ ++ u₂) := by
  obtain ⟨t₁, hp₁, hr₁⟩ := h₁
  obtain ⟨t₂, hp₂, hr₂⟩ := h₂
  obtain ⟨a, p, q, qs, -, happ, hsnd⟩ := parse_append hp₁ s₂
  obtain ⟨b, hb, -⟩ := (hsnd t₂).mp hp₂
  have hp := (happ _).mpr ⟨b, hb, rfl⟩
  refine ⟨_, hp, fun ctx => ?_⟩
  rw [quiet_append hp₁ hp₂ hp ctx, hr₁ ctx, hr₂ ctx, pure_bind, pure_bind]

theorem gives_escape (c : Char) : Gives (Block.escape c) [c] := by
  unfold Block.escape
  split
  · next hc =>
    subst hc
    exact ⟨ofOutline (.text [marker] .done), rfl, fun _ => rfl⟩
  · next hc =>
    have hpieces : Text.pieces marker [c] = [[c]] :=
      Text.pieces_of_not_mem (by simpa using Ne.symm hc)
    refine ⟨ofOutline (.text [c] .done), parse_eq_ok_iff.mpr ⟨_, _, ?_, .text [c] .nil, rfl⟩,
      fun _ => rfl⟩
    rw [hpieces]
    exact .mk [c] .nil

theorem gives_verbatim (t : Text) : Gives (verbatim t) t := by
  induction t with
  | nil => exact ⟨ofOutline .done, rfl, fun _ => rfl⟩
  | cons c t ih => exact (gives_escape c).append ih

/-- A text with every marker doubled is a template without definitions, which is its own expansion
and gives the text in every context: whatever the data of the record and whatever the user functions
are, none of which is looked at. -/
theorem render_verbatim (t : Text) :
    (∀ line ∈ (verbatim t).lines, Macros.definition? line = none) ∧
    Macros.expand (verbatim t) = verbatim t ∧
    ∃ template, parse (verbatim t) = .ok template ∧
      ∀ {σ : Type} (ctx : Context σ) (s : σ), (template.render ctx s).result = .ok t ∧
        Event.outward (template.render ctx s).events = [] ∧ (template.render ctx s).state = s := by
  have hplain : ∀ line ∈ (verbatim t).lines, Macros.definition? line = none :=
    fun _ => definition?_verbatim
  obtain ⟨template, hparse, hrender⟩ := gives_verbatim t
  refine ⟨hplain, Macros.expand_of_plain hplain, template, hparse, fun ctx s => ?_⟩
  have h := congrFun (hrender ctx) s
  injection h with hresult hevents hstate
  exact ⟨hresult, hevents, hstate⟩

/-- Three markers and a space are no definition once they are doubled. -/
example : Macros.expand (verbatim "$$$ a b\n$a$".toList) = "$$$$$$ a b\n$$a$$".toList := by
  decide

end Template
end MailMerge
