import MailMerge.Proofs.Concatenation
import MailMerge.Proofs.Splitting
import MailMerge.Proofs.TemplateGrammar

/-!
# Sources one after the other

A source after a template is a template exactly if it is one by itself, and then both together
render as the one after the other. The literal texts in which the two meet become one node; so
nothing is said here of the notes about nodes, but of everything that can be seen from outside:
which patterns the record getter is asked for, and which functions are called.
-/

namespace MailMerge

/-! ### Literal texts at the ends of a chain -/

/-- A literal text before a chain, left out if it is empty. -/
def Outline.literal (t : Text) (next : Outline) : Outline :=
  if t.isEmpty then next else .text t next

namespace Balanced

theorem literal_iff {t : Text} {ps : List Piece} {o : Outline} :
    Balanced (Piece.literal t ++ ps) o ↔ ∃ n, Balanced ps n ∧ o = Outline.literal t n := by
  unfold Piece.literal Outline.literal
  split
  · exact ⟨fun h => ⟨o, h, rfl⟩, fun ⟨_, h, ho⟩ => ho ▸ h⟩
  · constructor
    · rintro (_ | ⟨_, h⟩)
      exact ⟨_, h, rfl⟩
    · rintro ⟨n, h, rfl⟩
      exact .text t h

/-- A literal text at the end of a list of blocks stands behind every statement in it. -/
theorem eq_append_of_last {xs front ps : List Piece} {s : Statement} {t : Text}
    (h : xs ++ .statement s :: ps = front ++ [.text t]) :
    ∃ zs, ps = zs ++ [.text t] ∧ front = xs ++ .statement s :: zs := by
  rcases List.eq_nil_or_concat ps with rfl | ⟨zs, l, rfl⟩
  · cases (List.append_inj' h rfl).2
  · rw [List.concat_eq_append, ← List.cons_append, ← List.append_assoc] at h
    obtain ⟨hf, hl⟩ := List.append_inj' h rfl
    cases hl
    exact ⟨zs, List.concat_eq_append, hf.symm⟩

/-- What stands before a literal text at the end of a balanced sequence is balanced. -/
theorem before_text {ps : List Piece} {o : Outline} (h : Balanced ps o) {front : List Piece}
    {t : Text} (hp : ps = front ++ [.text t]) :
    ∃ a, Balanced front a ∧ o = a ++ .text t .done := by
  induction h generalizing front with
  | nil => exact absurd hp (by simp)
  | @text ps o u hrest ih =>
    cases front with
    | nil =>
      cases hp
      cases hrest
      exact ⟨.done, .nil, rfl⟩
    | cons p front =>
      obtain ⟨rfl, hq⟩ := List.cons.inj hp
      obtain ⟨a, ha, rfl⟩ := ih hq
      exact ⟨.text u a, .text u ha, rfl⟩
  | emit e _ ih =>
    cases front with
    | nil => cases hp
    | cons p front =>
      obtain ⟨rfl, hq⟩ := List.cons.inj hp
      obtain ⟨a, ha, rfl⟩ := ih hq
      exact ⟨.emit e a, .emit e ha, rfl⟩
  | if_ c yes _ _ ih =>
    cases front with
    | nil => cases hp
    | cons p front =>
      obtain ⟨rfl, hq⟩ := List.cons.inj hp
      obtain ⟨zs, hz, rfl⟩ := eq_append_of_last hq
      obtain ⟨a, ha, rfl⟩ := ih hz
      exact ⟨.branch c _ .done a, .if_ c yes ha, rfl⟩
  | @ifElse ys vs ps _ _ _ c yes no _ _ _ ih =>
    cases front with
    | nil => cases hp
    | cons p front =>
      obtain ⟨rfl, hq⟩ := List.cons.inj hp
      rw [← List.cons_append, ← List.append_assoc] at hq
      obtain ⟨zs, hz, rfl⟩ := eq_append_of_last hq
      obtain ⟨a, ha, rfl⟩ := ih hz
      refine ⟨.branch c _ _ a, ?_, rfl⟩
      rw [List.append_assoc, List.cons_append]
      exact .ifElse c yes no ha
  | for_ h body _ _ ih =>
    cases front with
    | nil => cases hp
    | cons p front =>
      obtain ⟨rfl, hq⟩ := List.cons.inj hp
      obtain ⟨zs, hz, rfl⟩ := eq_append_of_last hq
      obtain ⟨a, ha, rfl⟩ := ih hz
      exact ⟨.loop h _ a, .for_ h body ha, rfl⟩

theorem before_literal {front : List Piece} {t : Text} {o : Outline}
    (h : Balanced (front ++ Piece.literal t) o) :
    ∃ a, Balanced front a ∧ o = a ++ Outline.literal t .done := by
  unfold Piece.literal at h
  unfold Outline.literal
  split at h
  · next ht =>
    rw [List.append_nil] at h
    exact ⟨o, h, by rw [if_pos ht, Outline.append_done]⟩
  · next ht =>
    rw [if_neg ht]
    exact h.before_text rfl

/-- What stands behind a balanced part of a balanced sequence of blocks is balanced. -/
theorem behind {ks : List Block} {xs ys : List Piece} {a o : Outline}
    (hk : ks.map Piece.read = (xs ++ ys).map .ok) (hx : Balanced xs a)
    (h : Balanced (xs ++ ys) o) : ∃ b, Balanced ys b := by
  have hall := Template.Builder.run_start h hk
  rw [List.map_append] at hk
  obtain ⟨us, vs, rfl, hu, hv⟩ := List.map_eq_append_iff.1 hk
  rw [Template.Builder.run_balanced hx vs (b := Template.Builder.start) hu nofun] at hall
  have hframes : ∀ o, (Template.Builder.start.extend o).frames = [] := by
    intro o
    cases o <;> rfl
  obtain ⟨zs, hz, hc⟩ := Template.Builder.closes_run hall (hframes o)
  rw [Template.Builder.openings, hframes a] at hc
  rw [hv] at hz
  cases Piece.map_ok_inj hz
  cases hc with
  | nil hb => exact ⟨_, hb⟩

end Balanced

/-! ### Parsing -/

namespace Template

theorem parse_eq_ok_iff {source : Text} {t : Template} :
    parse source = .ok t ↔
      ∃ ps o, Piece.Spells (source.pieces marker) ps ∧ Balanced ps o ∧ t = ofOutline o := by
  constructor
  · intro h
    obtain ⟨ks, ps, o, hs, hk, hb⟩ := balanced_of_parse h
    rw [parse_of_balanced hs hk hb] at h
    cases h
    exact ⟨ps, o, (Piece.spells_iff source ps).mpr ⟨ks, hs, hk⟩, hb, rfl⟩
  · rintro ⟨ps, o, hs, hb, rfl⟩
    obtain ⟨ks, hs, hk⟩ := (Piece.spells_iff source ps).mp hs
    exact parse_of_balanced hs hk hb

/-- The chain that further pieces of a source write. -/
def Continues (qs : List Text) (b : Outline) : Prop :=
  ∃ back, Piece.Pairs qs back ∧ Balanced back b

/-- A source after a template: what the two texts write apart and together differs only in the
literal texts in which they meet. -/
theorem parse_append {s₁ : Text} {t₁ : Template} (h₁ : parse s₁ = .ok t₁) (s₂ : Text) :
    ∃ a p q qs, t₁ = ofOutline (a ++ Outline.literal p .done) ∧
      (∀ t, parse (s₁ ++ s₂) = .ok t ↔
        ∃ b, Continues qs b ∧ t = ofOutline (a ++ Outline.literal (p ++ q) b)) ∧
      ∀ t, parse s₂ = .ok t ↔ ∃ b, Continues qs b ∧ t = ofOutline (Outline.literal q b) := by
  obtain ⟨ps, o₁, hs₁, hb₁, rfl⟩ := parse_eq_ok_iff.mp h₁
  obtain ⟨front, p, rfl, hmeet⟩ := Piece.spells_glue hs₁
  obtain ⟨a, ha, rfl⟩ := hb₁.before_literal
  obtain ⟨q, qs, hq⟩ := List.exists_cons_of_ne_nil (Text.pieces_ne_nil marker s₂)
  refine ⟨a, p, q, qs, rfl, fun t => ?_, fun t => ?_⟩
  · rw [parse_eq_ok_iff, Text.pieces_append, hq]
    constructor
    · rintro ⟨rs, o, hs, hb, rfl⟩
      have hread := hs
      obtain ⟨back, hback, rfl⟩ := (hmeet q qs rs).mp hs
      rw [← hq, ← Text.pieces_append, Piece.spells_iff] at hread
      obtain ⟨ks, hsplit, hk⟩ := hread
      obtain ⟨r, hr⟩ := Balanced.behind hk ha hb
      obtain ⟨b, hbal, rfl⟩ := Balanced.literal_iff.mp hr
      refine ⟨b, ⟨back, hback, hbal⟩, ?_⟩
      have h := parse_of_balanced hsplit hk hb
      rw [parse_of_balanced hsplit hk (ha.append hr)] at h
      exact (Except.ok.inj h).symm
    · rintro ⟨b, ⟨back, hback, hb⟩, rfl⟩
      exact ⟨_, _, (hmeet q qs _).mpr ⟨back, hback, rfl⟩,
        ha.append (Balanced.literal_iff.mpr ⟨b, hb, rfl⟩), rfl⟩
  · rw [parse_eq_ok_iff, hq]
    constructor
    · rintro ⟨rs, o, hs, hb, rfl⟩
      obtain ⟨back, hback, rfl⟩ := Piece.spells_cons.mp hs
      obtain ⟨b, hbal, rfl⟩ := Balanced.literal_iff.mp hb
      exact ⟨b, ⟨back, hback, hbal⟩, rfl⟩
    · rintro ⟨b, ⟨back, hback, hb⟩, rfl⟩
      exact ⟨_, _, .mk q hback, Balanced.literal_iff.mpr ⟨b, hb, rfl⟩, rfl⟩

end Template

/-- Where two chains meet in a literal text, it makes no difference up to texts side by side whether
it is cut there. -/
theorem Outline.joinTexts_meet (a b : Outline) (p q : Text) :
    (a ++ literal (p ++ q) b).joinTexts = ((a ++ literal p .done) ++ literal q b).joinTexts := by
  change (a.append (literal (p ++ q) b)).joinTexts =
    ((a.append (literal p .done)).append (literal q b)).joinTexts
  induction a with
  | done =>
    cases p with
    | nil => rfl
    | cons c p =>
      cases q with
      | nil =>
        rw [List.append_nil]
        rfl
      | cons d q => exact prependText_append (c :: p) (d :: q) b.joinTexts
  | text t n ih => rw [append, append, append, joinTexts, joinTexts, ih]
  | emit e n ih => rw [append, append, append, joinTexts, joinTexts, ih]
  | branch c y z n _ _ ih => rw [append, append, append, joinTexts, joinTexts, ih]
  | loop h b n _ ih => rw [append, append, append, joinTexts, joinTexts, ih]

namespace Template

/-- Templates one after the other are a template, the one chain after the other but for the texts in
which they meet. -/
theorem parse_append_joined {s₁ s₂ : Text} {t₁ t₂ : Template} (h₁ : parse s₁ = .ok t₁)
    (h₂ : parse s₂ = .ok t₂) :
    ∃ t, parse (s₁ ++ s₂) = .ok t ∧
      t.outline.joinTexts = (t₁.outline ++ t₂.outline).joinTexts := by
  obtain ⟨a, p, q, qs, rfl, happ, hsnd⟩ := parse_append h₁ s₂
  obtain ⟨b, hb, rfl⟩ := (hsnd t₂).mp h₂
  refine ⟨_, (happ _).mpr ⟨b, hb, rfl⟩, ?_⟩
  rw [outline_ofOutline, outline_ofOutline, outline_ofOutline]
  exact Outline.joinTexts_meet a b p q

/-- Templates in a row are a template, the chains in a row but for the texts in which they meet. -/
theorem parse_flatten {sources : List Text} {os : List Outline}
    (h : List.Forall₂ (fun s o => parse s = .ok (ofOutline o)) sources os) :
    ∃ t, parse sources.flatten = .ok t ∧
      t.outline.joinTexts = (Outline.sequence os).joinTexts := by
  induction h with
  | nil => exact ⟨ofOutline .done, rfl, rfl⟩
  | @cons s o sources os hs _ ih =>
    obtain ⟨u, hu, hjoin⟩ := ih
    obtain ⟨t, ht, hmeet⟩ := parse_append_joined hs hu
    rw [outline_ofOutline] at hmeet
    exact ⟨t, ht, hmeet.trans (Outline.joinTexts_append o hjoin)⟩

end Template

/-! ### What can be seen from outside -/

namespace Event

/-- Whether an event reaches the record getter or a user function. -/
def isOutward : Event → Bool
  | .asked _ | .called _ _ => true
  | _ => false

/-- The events that reach the record getter or a user function, in their order. -/
def outward (es : List Event) : List Event := es.filter isOutward

theorem outward_append (es fs : List Event) : outward (es ++ fs) = outward es ++ outward fs :=
  List.filter_append es fs

end Event

namespace Eval

variable {σ α β : Type}

/-- A computation without the events that nothing outside sees. -/
def quiet (x : Eval σ α) : Eval σ α := fun s =>
  let o := x s
  ⟨o.result, Event.outward o.events, o.state⟩

theorem quiet_pure (a : α) : quiet (pure a : Eval σ α) = pure a := rfl

theorem quiet_text (t : Text) : quiet (note (.text t) : Eval σ Unit) = pure () := rfl

theorem quiet_bind (x : Eval σ α) (f : α → Eval σ β) :
    quiet (x >>= f) = (do let a ← quiet x; quiet (f a)) := by
  funext s
  change (let o := x.andThen f s; (⟨o.result, Event.outward o.events, o.state⟩ : Outcome σ β)) =
    (quiet x).andThen (fun a => quiet (f a)) s
  unfold andThen quiet
  cases x s with
  | mk r es t =>
    cases r with
    | error e => rfl
    | ok a => simp only [Event.outward_append]

/-- A computation after one that fails is not reached. -/
theorem bind_of_error {x : Eval σ α} {f : α → Eval σ β} {s : σ} {e : RenderError}
    (h : (x s).result = .error e) : (x >>= f) s = ⟨.error e, (x s).events, (x s).state⟩ := by
  change x.andThen f s = _
  unfold andThen
  cases hx : x s with
  | mk r es t =>
    rw [hx] at h
    cases h
    rfl

/-- A computation after one that gives a result goes on from its state. -/
theorem bind_of_ok {x : Eval σ α} {f : α → Eval σ β} {s : σ} {a : α}
    (h : (x s).result = .ok a) :
    (x >>= f) s = ⟨(f a (x s).state).result, (x s).events ++ (f a (x s).state).events,
      (f a (x s).state).state⟩ := by
  change x.andThen f s = _
  unfold andThen
  cases hx : x s with
  | mk r es t =>
    rw [hx] at h
    cases h
    rfl

/-- A text put before the one that a computation gives. -/
theorem bind_prepend (t : Text) (y : Eval σ Text) (s : σ) :
    (do let u ← y; pure (t ++ u) : Eval σ Text) s =
      ⟨(y s).result.map (t ++ ·), (y s).events, (y s).state⟩ := by
  cases h : (y s).result with
  | error e =>
    rw [bind_of_error h]
    rfl
  | ok u =>
    rw [bind_of_ok h]
    change (⟨_, (y s).events ++ [], _⟩ : Outcome σ Text) = _
    rw [List.append_nil]
    rfl

end Eval

namespace Outline

open Eval (quiet)

variable {σ : Type}

theorem quiet_literal (t : Text) (o : Outline) (c : Context σ) :
    quiet ((literal t o).render c) = (do let u ← quiet (o.render c); pure (t ++ u)) := by
  unfold literal
  split
  · next ht =>
    rw [List.isEmpty_iff.mp ht]
    exact (bind_pure _).symm
  · simp only [render, Eval.quiet_bind, Eval.quiet_text, Eval.quiet_pure, pure_bind]

/-- Where two chains meet in a literal text, it makes no difference to which one it belongs. -/
theorem quiet_meet (a b : Outline) (p q : Text) (c : Context σ) :
    quiet ((a ++ literal (p ++ q) b).render c) = (do
      let x ← quiet ((a ++ literal p .done).render c)
      let y ← quiet ((literal q b).render c)
      pure (x ++ y)) := by
  simp only [render_append, Eval.quiet_bind, quiet_literal, render, Eval.quiet_pure, bind_assoc,
    pure_bind, List.append_assoc, List.append_nil]

end Outline

namespace Template

variable {σ : Type}

/-- Seen from outside, a source after a template renders as the one after the other. -/
theorem quiet_append {s₁ s₂ : Text} {t₁ t₂ t : Template} (h₁ : parse s₁ = .ok t₁)
    (h₂ : parse s₂ = .ok t₂) (h : parse (s₁ ++ s₂) = .ok t) (ctx : Context σ) :
    (t.render ctx).quiet = (do
      let x ← (t₁.render ctx).quiet
      let y ← (t₂.render ctx).quiet
      pure (x ++ y)) := by
  obtain ⟨a, p, q, qs, rfl, happ, hsnd⟩ := parse_append h₁ s₂
  obtain ⟨b, hb, rfl⟩ := (happ t).mp h
  have hq := (hsnd _).mpr ⟨b, hb, rfl⟩
  rw [h₂] at hq
  cases hq
  simp only [render, outline_ofOutline]
  exact Outline.quiet_meet a b p q ctx

/-- A source after a template is a template exactly if it is one by itself. If so, both together
ask and call what the first does and then what the second does from the state that the first
leaves, and give the text of the first and then that of the second. If the first fails, its error
is the result, and nothing more is asked, called or changed; if only the second fails, the result
is the error of the second. -/
theorem parse_append_render {s₁ : Text} {t₁ : Template} (h₁ : parse s₁ = .ok t₁) (s₂ : Text) :
    ((∃ t, parse (s₁ ++ s₂) = .ok t) ↔ ∃ t₂, parse s₂ = .ok t₂) ∧
    ∀ t t₂, parse (s₁ ++ s₂) = .ok t → parse s₂ = .ok t₂ →
      ∀ {σ : Type} (ctx : Context σ) (s : σ),
        let first := t₁.render ctx s
        let second := t₂.render ctx first.state
        let both := t.render ctx s
        (∀ e, first.result = .error e →
          both.result = .error e ∧ both.state = first.state ∧
          Event.outward both.events = Event.outward first.events) ∧
        ∀ text, first.result = .ok text →
          both.result = second.result.map (text ++ ·) ∧ both.state = second.state ∧
          Event.outward both.events =
            Event.outward first.events ++ Event.outward second.events := by
  constructor
  · obtain ⟨a, p, q, qs, -, happ, hsnd⟩ := parse_append h₁ s₂
    constructor
    · rintro ⟨t, h⟩
      obtain ⟨b, hb, -⟩ := (happ t).mp h
      exact ⟨_, (hsnd _).mpr ⟨b, hb, rfl⟩⟩
    · rintro ⟨t₂, h₂⟩
      obtain ⟨b, hb, -⟩ := (hsnd t₂).mp h₂
      exact ⟨_, (happ _).mpr ⟨b, hb, rfl⟩⟩
  · intro t t₂ h h₂ σ ctx s first second both
    have hquiet := congrFun (quiet_append h₁ h₂ h ctx) s
    constructor
    · intro e he
      have hfirst : ((t₁.render ctx).quiet s).result = .error e := he
      rw [Eval.bind_of_error hfirst] at hquiet
      injection hquiet with hresult hevents hstate
      exact ⟨hresult, hstate, hevents⟩
    · intro text htext
      have hfirst : ((t₁.render ctx).quiet s).result = .ok text := htext
      rw [Eval.bind_of_ok hfirst, Eval.bind_prepend] at hquiet
      injection hquiet with hresult hevents hstate
      exact ⟨hresult, hstate, hevents⟩

/-- Two templates that meet in four markers, and count the calls that they make. -/
theorem counting_calls_meet :
    let host : Host Nat := ⟨fun f as n => (.ok (.string (f ++ as.flatten ++ Text.ofNat n)), n + 1)⟩
    let ctx := Context.ofRecord (Utf8.encode "\x7b\"x\":\"y\"\x7d".toList) (some host)
    ∃ t₁ t, parse "$f(x)$a$$".toList = .ok t₁ ∧
      parse ("$f(x)$a$$".toList ++ "$$b$f(x)$".toList) = .ok t ∧
      (t.render ctx 5).result = .ok "fy5a$$bfy6".toList ∧ (t.render ctx 5).state = 7 ∧
      Event.outward (t.render ctx 5).events = [.asked "x".toList, .called "f".toList ["y".toList],
        .asked "x".toList, .called "f".toList ["y".toList]] := by
  intro host ctx
  let call (next : Outline) : Outline := .emit (.call "f".toList [.access "x".toList]) next
  let before := call (.text "a".toList (.text "$".toList .done))
  let behind := Outline.text "$".toList (.text "b".toList (call .done))
  have h₁ : parse "$f(x)$a$$".toList = .ok (ofOutline before) := rfl
  have h₂ : parse "$$b$f(x)$".toList = .ok (ofOutline behind) := rfl
  obtain ⟨hparse, hrender⟩ := parse_append_render h₁ "$$b$f(x)$".toList
  obtain ⟨t, h⟩ := hparse.mpr ⟨_, h₂⟩
  have hfirst : ((ofOutline before).render ctx 5).result = .ok "fy5a$".toList := by decide +kernel
  obtain ⟨hresult, hstate, hevents⟩ := (hrender t _ h h₂ ctx 5).2 _ hfirst
  refine ⟨_, t, h₁, h, hresult.trans ?_, hstate.trans ?_, hevents.trans ?_⟩
  · decide +kernel
  · decide +kernel
  · decide +kernel

end Template
end MailMerge
