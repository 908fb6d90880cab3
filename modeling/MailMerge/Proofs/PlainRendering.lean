import MailMerge.Function

/-!
# Rendering without user functions

Without user functions, what a template gives depends only on what the getter finds in the record:
neither the states in which functions could be nor the bytes that the record is written with make a
difference. Two contexts that find the same are followed side by side, through elements, conditions
and outlines.
-/

namespace MailMerge

namespace Scope

/-- A pattern is answered by the scopes alone or passed on to the record as it is. -/
theorem route_data (scopes : List Scope) (pattern : Text) :
    (∃ r, ∀ data, route scopes data pattern = r) ∨
      ∀ data, route scopes data pattern = .ask data pattern := by
  induction scopes with
  | nil => exact .inr fun _ => rfl
  | cons s outer ih =>
    by_cases hi : s.index = some pattern
    · exact .inl ⟨_, fun data => by rw [route, if_pos hi]⟩
    · cases ha : Pattern.afterItem? pattern s.item with
      | none =>
        have hr : ∀ data, route (s :: outer) data pattern = route outer data pattern :=
          fun data => by rw [route, if_neg hi, ha]
        simpa only [hr] using ih
      | some rest =>
        cases rest with
        | nil => exact .inl ⟨_, fun data => by rw [route, if_neg hi, ha]⟩
        | cons c r => exact .inl ⟨_, fun data => by rw [route, if_neg hi, ha]⟩

end Scope

/-! ### The same results -/

namespace Eval

variable {σ τ α β : Type}

/-- Computations that give the same, whatever the states of the user functions are. -/
def SameResult (x : Eval σ α) (y : Eval τ α) : Prop := ∀ s t, (x s).result = (y t).result

namespace SameResult

theorem lift (r : Except RenderError α) :
    SameResult (Eval.lift r : Eval σ α) (Eval.lift r : Eval τ α) :=
  fun _ _ => rfl

theorem pure (a : α) : SameResult (Pure.pure a : Eval σ α) (Pure.pure a : Eval τ α) :=
  lift (.ok a)

theorem note (e : Event) : SameResult (Eval.note e : Eval σ Unit) (Eval.note e : Eval τ Unit) :=
  fun _ _ => rfl

theorem bind {x : Eval σ α} {y : Eval τ α} {f : α → Eval σ β} {g : α → Eval τ β}
    (h : SameResult x y) (hf : ∀ a, SameResult (f a) (g a)) :
    SameResult (x >>= f) (y >>= g) := by
  intro s t
  have hr := h s t
  change (x.andThen f s).result = (y.andThen g t).result
  unfold andThen
  cases hx : x s with
  | mk r es s' =>
    cases hy : y t with
    | mk q es' t' =>
      rw [hx, hy] at hr
      cases hr
      cases r with
      | error e => rfl
      | ok a => exact hf a s' t'

theorem attempt {x : Eval σ α} {y : Eval τ α} (h : SameResult x y) :
    SameResult x.attempt y.attempt :=
  fun s t => congrArg Except.ok (h s t)

theorem mapError (f : RenderError → RenderError) {x : Eval σ α} {y : Eval τ α}
    (h : SameResult x y) : SameResult (x.mapError f) (y.mapError f) :=
  fun s t => congrArg (Except.mapError f) (h s t)

/-- A choice gives the same if the truth values and both sides do. -/
theorem choose {x : Eval σ Bool} {y : Eval τ Bool} {a b : Eval σ α} {a' b' : Eval τ α}
    (h : SameResult x y) (ha : SameResult a a') (hb : SameResult b b') :
    SameResult (do if ← x then a else b) (do if ← y then a' else b') := by
  refine h.bind fun v => ?_
  cases v with
  | true => exact ha
  | false => exact hb

theorem prepend (t : Text) {x : Eval σ Text} {y : Eval τ Text} (h : SameResult x y) :
    SameResult (do let r ← x; Pure.pure (t ++ r)) (do let r ← y; Pure.pure (t ++ r)) :=
  h.bind fun _ => pure _

theorem concat {f : α → Eval σ Text} {g : α → Eval τ Text} (h : ∀ a, SameResult (f a) (g a))
    (as : List α) : SameResult (Eval.concat f as) (Eval.concat g as) := by
  induction as with
  | nil => exact pure _
  | cons a as ih => exact (h a).bind fun t => ih.prepend t

end SameResult
end Eval

/-! ### Contexts that find the same -/

open Eval (SameResult)

variable {σ τ : Type}

/-- Contexts without user functions whose getter finds the same in both records, in the same
scopes. -/
structure Context.Twins (c : Context σ) (d : Context τ) : Prop where
  left : c.host = none
  right : d.host = none
  scopes : c.scopes = d.scopes
  root : c.root = d.root
  data : ∀ p, c.root c.data p = d.root d.data p

namespace Context.Twins

variable {c : Context σ} {d : Context τ}

theorem enter (h : Twins c d) (s : Scope) : Twins (c.enter s) (d.enter s) :=
  ⟨h.left, h.right, congrArg (s :: ·) h.scopes, h.root, h.data⟩

theorem lookup (h : Twins c d) (p : Text) : SameResult (c.lookup p) (d.lookup p) := by
  unfold Context.lookup
  rw [h.scopes]
  rcases Scope.route_data d.scopes p with ⟨r, hr⟩ | hr
  · rw [hr, hr]
    cases r with
    | found t k => exact .pure _
    | absent q => exact .lift _
    | ask data q =>
      rw [h.root]
      exact (SameResult.note _).bind fun _ => .lift _
  · rw [hr, hr]
    dsimp only
    rw [h.data]
    exact (SameResult.note _).bind fun _ => .lift _

theorem call (h : Twins c d) (function : Text) (x : Eval σ (List Text)) (y : Eval τ (List Text)) :
    SameResult (c.call function x) (d.call function y) := by
  unfold Context.call
  rw [h.left, h.right]
  exact .lift _

end Context.Twins

/-! ### Elements and conditions -/

namespace Element

variable {c : Context σ} {d : Context τ}

theorem compute_same (op : Arithmetic) (l r : Element) {x y : Eval σ Value} {x' y' : Eval τ Value}
    (hx : SameResult x x') (hy : SameResult y y') :
    SameResult (compute op l r x y) (compute op l r x' y') := by
  refine hx.bind fun v => (SameResult.lift _).bind fun a => ?_
  exact hy.bind fun w => (SameResult.lift _).bind fun b => .pure _

theorem value_same (h : c.Twins d) : ∀ e : Element, SameResult (e.value c) (e.value d)
  | .access p => by
    rw [value, value]
    exact (h.lookup p).bind fun _ => .lift _
  | .constant _ _ => by
    rw [value, value]
    exact .pure _
  | .arithmetic op l r => by
    rw [value, value]
    exact (compute_same op l r (value_same h l) (value_same h r)).bind fun _ => .pure _
  | .call f as => by
    rw [value, value]
    exact h.call f _ _

theorem text_same (h : c.Twins d) (e : Element) : SameResult (e.text c) (e.text d) := by
  cases e with
  | access p =>
    rw [text, text]
    exact (h.lookup p).bind fun _ => .pure _
  | constant t v =>
    rw [text, text]
    exact .pure _
  | arithmetic op l r =>
    rw [text, text]
    exact (compute_same op l r (value_same h l) (value_same h r)).bind fun _ => .pure _
  | call f as =>
    rw [text, text]
    exact (h.call f _ _).bind fun _ => .pure _

/-- A test gives the same if what it tests does. -/
theorem test_same {α : Type} {x : Eval σ α} {y : Eval τ α} (h : SameResult x y)
    {f : Except RenderError α → Eval σ Bool} {g : Except RenderError α → Eval τ Bool}
    (hok : ∀ a, SameResult (f (.ok a)) (g (.ok a)))
    (herr : ∀ e, f (.error e) = (if e.isMissing then pure false else .fail e) ∧
      g (.error e) = if e.isMissing then pure false else .fail e) :
    SameResult (x.attempt >>= f) (y.attempt >>= g) := by
  refine h.attempt.bind fun r => ?_
  cases r with
  | ok a => exact hok a
  | error e =>
    rw [(herr e).1, (herr e).2]
    split
    · exact .pure _
    · exact .lift _

theorem isPresent_same (h : c.Twins d) (e : Element) :
    SameResult (e.isPresent c) (e.isPresent d) := by
  have hunit : ∀ {α : Type} {x : Eval σ α} {y : Eval τ α}, SameResult x y →
      SameResult (do let _ ← x : Eval σ Unit) (do let _ ← y : Eval τ Unit) :=
    fun hxy => hxy.bind fun _ => .pure _
  have hv := value_same h e
  cases e with
  | access p => exact test_same (hunit (h.lookup p)) (fun _ => .pure _) fun _ => ⟨rfl, rfl⟩
  | constant t v => exact test_same (hunit hv) (fun _ => .pure _) fun _ => ⟨rfl, rfl⟩
  | arithmetic op l r => exact test_same (hunit hv) (fun _ => .pure _) fun _ => ⟨rfl, rfl⟩
  | call f as => exact test_same (hunit hv) (fun _ => .pure _) fun _ => ⟨rfl, rfl⟩

theorem isOfKind_same (h : c.Twins d) (e : Element) (k : Kind) :
    SameResult (e.isOfKind c k) (e.isOfKind d k) :=
  test_same (value_same h e) (fun _ => .pure _) fun _ => ⟨rfl, rfl⟩

end Element

theorem Condition.holds_same {c : Context σ} {d : Context τ} (h : c.Twins d) :
    ∀ b : Condition, SameResult (b.holds c) (b.holds d)
  | .single e => (e.value_same h).bind fun _ => .lift _
  | .both a b => (holds_same h a).choose (holds_same h b) (.pure _)
  | .either a b => (holds_same h a).choose (.pure _) (holds_same h b)
  | .negated a => (holds_same h a).bind fun _ => .pure _
  | .compare _ l r => (l.value_same h).bind fun _ => (r.value_same h).bind fun _ => .lift _
  | .present e => e.isPresent_same h
  | .ofKind e k => e.isOfKind_same h k

/-! ### Templates -/

/-- Contexts that find the same give the same text. -/
theorem Outline.render_same (o : Outline) :
    ∀ {c : Context σ} {d : Context τ}, c.Twins d → SameResult (o.render c) (o.render d) := by
  induction o with
  | done => exact fun _ => .pure _
  | text t n ih => exact fun h => (SameResult.note _).bind fun _ => (ih h).prepend t
  | emit e n ih =>
    intro c d h
    refine (SameResult.note _).bind fun _ => ?_
    exact ((e.text_same h).mapError e.reportMissing).bind fun t => (ih h).prepend t
  | branch b y z n ihy ihz ihn =>
    intro c d h
    refine (SameResult.note _).bind fun _ => ?_
    exact ((b.holds_same h).choose (ihy h) (ihz h)).bind fun t => (ihn h).prepend t
  | loop header body n ihb ihn =>
    intro c d h
    refine (SameResult.note _).bind fun _ => (h.lookup header.target).bind fun found => ?_
    refine (SameResult.lift (header.rounds found.1 found.2)).bind fun scopes => ?_
    refine (SameResult.concat (fun s => ?_) scopes).bind fun t => (ihn h).prepend t
    exact (SameResult.note _).bind fun _ => ihb (h.enter s)

/-- Without user functions, a template gives the same for two records in which the getter finds the
same, in whatever states the functions would be. -/
theorem Template.render_same (t : Template) {data data' : Bytes}
    (h : ∀ p, Record.get data p = Record.get data' p) :
    SameResult (t.render (.ofRecord data none : Context σ))
      (t.render (.ofRecord data' none : Context τ)) :=
  t.outline.render_same ⟨rfl, rfl, rfl, rfl, h⟩

/-- Records of one document render alike. -/
theorem renderRecord_same (source : Text) {data data' : Bytes} {d : Json}
    (h : Json.read data = .ok d) (h' : Json.read data' = .ok d) :
    renderRecord source data = renderRecord source data' := by
  have hget : ∀ p, Record.get data p = Record.get data' p := by
    intro p
    unfold Record.get
    rw [h, h']
  unfold renderRecord
  cases Template.parse source with
  | error e => rfl
  | ok t => exact congrArg (Except.mapError Sum.inr) (t.render_same hget () ())

end MailMerge
