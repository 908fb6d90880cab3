import MailMerge.Proofs.Agreement
import MailMerge.Proofs.Patterns

/-!
# Other patterns in place of those of a template

A template in which every pattern is replaced renders like the original one if the two contexts know
the same under the pattern and under its replacement, also after any loop of the template has been
entered. The contexts are related by an invariant that the loops keep; elements, conditions and
outlines then agree by induction on their structure.
-/

namespace MailMerge

/-! ### Replacing patterns -/

namespace Element

mutual

/-- The element with its patterns replaced. -/
def mapPatterns (f : Text → Text) : Element → Element
  | .access p => .access (f p)
  | .constant t v => .constant t v
  | .arithmetic op l r => .arithmetic op (l.mapPatterns f) (r.mapPatterns f)
  | .call g as => .call g (mapPatternsAll f as)

/-- The elements with their patterns replaced. -/
def mapPatternsAll (f : Text → Text) : List Element → List Element
  | [] => []
  | e :: es => e.mapPatterns f :: mapPatternsAll f es

end

end Element

/-- The condition with its patterns replaced. -/
def Condition.mapPatterns (f : Text → Text) : Condition → Condition
  | .single e => .single (e.mapPatterns f)
  | .both a b => .both (a.mapPatterns f) (b.mapPatterns f)
  | .either a b => .either (a.mapPatterns f) (b.mapPatterns f)
  | .negated a => .negated (a.mapPatterns f)
  | .compare op l r => .compare op (l.mapPatterns f) (r.mapPatterns f)
  | .present e => .present (e.mapPatterns f)
  | .ofKind e k => .ofKind (e.mapPatterns f) k

/-- The outline with its patterns replaced, those of loop targets included. -/
def Outline.mapPatterns (f : Text → Text) : Outline → Outline
  | .done => .done
  | .text t n => .text t (n.mapPatterns f)
  | .emit e n => .emit (e.mapPatterns f) (n.mapPatterns f)
  | .branch c y z n => .branch (c.mapPatterns f) (y.mapPatterns f) (z.mapPatterns f)
      (n.mapPatterns f)
  | .loop h b n => .loop ⟨h.item, h.index, f h.target⟩ (b.mapPatterns f) (n.mapPatterns f)

namespace Element

mutual

/-- An element with its patterns kept. -/
theorem mapPatterns_id : ∀ e : Element, e.mapPatterns id = e
  | .access _ => rfl
  | .constant _ _ => rfl
  | .arithmetic _ l r => by rw [mapPatterns, mapPatterns_id l, mapPatterns_id r]
  | .call _ as => by rw [mapPatterns, mapPatternsAll_id as]

theorem mapPatternsAll_id : ∀ es : List Element, mapPatternsAll id es = es
  | [] => rfl
  | e :: es => by rw [mapPatternsAll, mapPatterns_id e, mapPatternsAll_id es]

end

end Element

theorem Condition.mapPatterns_id (c : Condition) : c.mapPatterns id = c := by
  induction c with
  | single e => rw [mapPatterns, e.mapPatterns_id]
  | both a b iha ihb => rw [mapPatterns, iha, ihb]
  | either a b iha ihb => rw [mapPatterns, iha, ihb]
  | negated a ih => rw [mapPatterns, ih]
  | compare op l r => rw [mapPatterns, l.mapPatterns_id, r.mapPatterns_id]
  | present e => rw [mapPatterns, e.mapPatterns_id]
  | ofKind e k => rw [mapPatterns, e.mapPatterns_id]

theorem Outline.mapPatterns_id (o : Outline) : o.mapPatterns id = o := by
  induction o with
  | done => rfl
  | text t n ih => rw [mapPatterns, ih]
  | emit e n ih => rw [mapPatterns, e.mapPatterns_id, ih]
  | branch c y z n ihy ihz ihn => rw [mapPatterns, c.mapPatterns_id, ihy, ihz, ihn]
  | loop h b n ihb ihn =>
    rw [mapPatterns, ihb, ihn]
    rfl

/-! ### What is needed of errors and contexts -/

/-- A relation of errors that does not see which of two elements an error names, if one is the
other with its patterns replaced. -/
structure Tolerance (E : RenderError → RenderError → Prop) (f : Text → Text) : Prop where
  refl : ∀ e, E e e
  missing : ∀ {e e'}, E e e' → e.isMissing = e'.isMissing
  number : ∀ (e : Element) (k : Kind),
    E (.expectedNumber e.display k) (.expectedNumber (e.mapPatterns f).display k)
  boolean : ∀ (e : Element) (k : Kind),
    E (.expectedBoolean e.display k) (.expectedBoolean (e.mapPatterns f).display k)
  target : ∀ (p : Text) (k : Kind), E (.notIterable p k) (.notIterable (f p) k)
  report : ∀ (e : Element) {x y}, E x y →
    E (e.reportMissing x) ((e.mapPatterns f).reportMissing y)

/-- The variant of an error does not tell which element it names. -/
theorem Tolerance.sameVariant (f : Text → Text) : Tolerance RenderError.SameVariant f where
  refl _ := rfl
  missing := by
    intro e e' h
    cases e <;> cases e' <;> first | rfl | cases h
  number _ _ := rfl
  boolean _ _ := rfl
  target _ _ := rfl
  report := by
    intro e x y h
    cases x <;> cases y <;> first | rfl | cases h

/-- If all patterns are kept, errors are the same. -/
theorem Tolerance.same : Tolerance Eq id where
  refl _ := rfl
  missing h := congrArg RenderError.isMissing h
  number e _ := by rw [e.mapPatterns_id]
  boolean e _ := by rw [e.mapPatterns_id]
  target _ _ := rfl
  report e _ _ h := by rw [e.mapPatterns_id, h]

variable {σ : Type} {E : RenderError → RenderError → Prop} {f : Text → Text}

/-- A relation of contexts with the same user functions that know the same under a pattern and
under its replacement, and are still related in a round of a loop whose names are allowed. -/
structure Simulation (E : RenderError → RenderError → Prop) (f : Text → Text)
    (P N : Text → Prop) (C : Context σ → Context σ → Prop) : Prop where
  host : ∀ {c d}, C c d → c.host = d.host
  lookup : ∀ {c d p}, C c d → P p → Eval.Agree E Eq (c.lookup p) (d.lookup (f p))
  enter : ∀ {c d s}, C c d → N s.item → (∀ i ∈ s.index, N i) → C (c.enter s) (d.enter s)

/-! ### Elements -/

namespace Element

open Eval (Agree)

variable {c d : Context σ}

theorem compute_agree (ht : Tolerance E f) (op : Arithmetic) (l r : Element)
    {x y x' y' : Eval σ Value} (hx : Agree E Eq x x') (hy : Agree E Eq y y') :
    Agree E Eq (compute op l r x y) (compute op (l.mapPatterns f) (r.mapPatterns f) x' y') := by
  have hnum : ∀ (e : Element) (v : Value), Agree E Eq (Eval.lift (e.asNumber v) : Eval σ Float)
      (Eval.lift ((e.mapPatterns f).asNumber v)) := by
    intro e v
    cases v with
    | number x => exact .lift (.ok rfl)
    | _ => exact .lift (.error (ht.number e _))
  refine hx.bind ?_
  rintro v _ rfl
  refine (hnum l v).bind ?_
  rintro a _ rfl
  refine hy.bind ?_
  rintro w _ rfl
  refine (hnum r w).bind ?_
  rintro b _ rfl
  exact .pure rfl

theorem call_agree (ht : Tolerance E f) (hh : c.host = d.host) (g : Text)
    {x y : Eval σ (List Text)} (h : Agree E Eq x y) : Agree E Eq (c.call g x) (d.call g y) := by
  unfold Context.call
  rw [← hh]
  cases c.host with
  | none => exact .fail (ht.refl _)
  | some host =>
    refine h.bind ?_
    rintro as _ rfl
    exact .refl ht.refl _

/-- The two contexts know the same under the patterns of a list and their replacements. -/
def LookUpAlike (E : RenderError → RenderError → Prop) (f : Text → Text) (c d : Context σ)
    (ps : List Text) : Prop :=
  ∀ p ∈ ps, Agree E Eq (c.lookup p) (d.lookup (f p))

theorem LookUpAlike.left {ps qs : List Text} (h : LookUpAlike E f c d (ps ++ qs)) :
    LookUpAlike E f c d ps :=
  fun p hp => h p (List.mem_append_left _ hp)

theorem LookUpAlike.right {ps qs : List Text} (h : LookUpAlike E f c d (ps ++ qs)) :
    LookUpAlike E f c d qs :=
  fun p hp => h p (List.mem_append_right _ hp)

mutual

/-- The values of an element agree. -/
theorem value_agree (ht : Tolerance E f) (hh : c.host = d.host) :
    ∀ e : Element, LookUpAlike E f c d e.patterns →
      Agree E Eq (e.value c) ((e.mapPatterns f).value d)
  | .access p, h => by
    rw [value, mapPatterns, value]
    refine (h p (List.mem_singleton_self p)).bind ?_
    rintro ⟨t, k⟩ _ rfl
    exact .refl ht.refl _
  | .constant _ _, _ => by
    rw [value, mapPatterns, value]
    exact .pure rfl
  | .arithmetic op l r, h => by
    rw [value, mapPatterns, value]
    refine (compute_agree ht op l r (value_agree ht hh l h.left)
      (value_agree ht hh r h.right)).bind ?_
    rintro x _ rfl
    exact .pure rfl
  | .call g as, h => by
    rw [value, mapPatterns, value]
    exact call_agree ht hh g (texts_agree ht hh as h)

/-- The texts of an element agree. -/
theorem text_agree (ht : Tolerance E f) (hh : c.host = d.host) :
    ∀ e : Element, LookUpAlike E f c d e.patterns →
      Agree E Eq (e.text c) ((e.mapPatterns f).text d)
  | .access p, h => by
    rw [text, mapPatterns, text]
    refine (h p (List.mem_singleton_self p)).bind ?_
    rintro r _ rfl
    exact .pure rfl
  | .constant _ _, _ => by
    rw [text, mapPatterns, text]
    exact .pure rfl
  | .arithmetic op l r, h => by
    rw [text, mapPatterns, text]
    refine (compute_agree ht op l r (value_agree ht hh l h.left)
      (value_agree ht hh r h.right)).bind ?_
    rintro x _ rfl
    exact .pure rfl
  | .call g as, h => by
    rw [text, mapPatterns, text]
    refine (call_agree ht hh g (texts_agree ht hh as h)).bind ?_
    rintro v _ rfl
    exact .pure rfl

/-- The texts of elements agree. -/
theorem texts_agree (ht : Tolerance E f) (hh : c.host = d.host) :
    ∀ es : List Element, LookUpAlike E f c d (patternsAll es) →
      Agree E Eq (texts c es) (texts d (mapPatternsAll f es))
  | [], _ => by
    rw [texts, mapPatternsAll, texts]
    exact .pure rfl
  | e :: es, h => by
    rw [texts, mapPatternsAll, texts]
    refine (text_agree ht hh e h.left).bind ?_
    rintro t _ rfl
    refine (texts_agree ht hh es h.right).bind ?_
    rintro ts _ rfl
    exact .pure rfl

end

/-- A test of a result agrees if it takes what is missing for a no and hands other errors on. -/
theorem test_agree (ht : Tolerance E f) {α : Type} {x y : Eval σ α} (h : Agree E Eq x y)
    {g : Except RenderError α → Eval σ Bool}
    (herr : ∀ e, g (.error e) = if e.isMissing then pure false else .fail e) :
    Agree E Eq (x.attempt >>= g) (y.attempt >>= g) := by
  refine h.attempt.bind ?_
  rintro _ _ (@⟨v, _, rfl⟩ | @⟨e, e', he⟩)
  · exact .refl ht.refl _
  · rw [herr, herr, ht.missing he]
    split
    · exact .pure rfl
    · exact .fail he

theorem isPresent_agree (ht : Tolerance E f) (hh : c.host = d.host) (e : Element)
    (h : LookUpAlike E f c d e.patterns) :
    Agree E Eq (e.isPresent c) ((e.mapPatterns f).isPresent d) := by
  have hunit : ∀ {α : Type} {x y : Eval σ α}, Agree E Eq x y →
      Agree E Eq (do let _ ← x : Eval σ Unit) (do let _ ← y : Eval σ Unit) :=
    fun hxy => hxy.bind fun _ _ _ => .pure rfl
  have hv := value_agree ht hh e h
  cases e with
  | access p => exact test_agree ht (hunit (h p (List.mem_singleton_self p))) fun _ => rfl
  | constant t v => exact test_agree ht (hunit hv) fun _ => rfl
  | arithmetic op l r => exact test_agree ht (hunit hv) fun _ => rfl
  | call g as => exact test_agree ht (hunit hv) fun _ => rfl

theorem isOfKind_agree (ht : Tolerance E f) (hh : c.host = d.host) (e : Element) (k : Kind)
    (h : LookUpAlike E f c d e.patterns) :
    Agree E Eq (e.isOfKind c k) ((e.mapPatterns f).isOfKind d k) :=
  test_agree ht (value_agree ht hh e h) fun _ => rfl

end Element

/-! ### Conditions -/

namespace Condition

open Element
open Eval (Agree)

variable {c d : Context σ}

theorem comparison_agree (ht : Tolerance E f) (hh : c.host = d.host) (op : Comparison)
    (l r : Element) (h : LookUpAlike E f c d (l.patterns ++ r.patterns)) :
    Agree E Eq (comparison c op l r) (comparison d op (l.mapPatterns f) (r.mapPatterns f)) := by
  refine (value_agree ht hh l h.left).bind ?_
  rintro a _ rfl
  refine (value_agree ht hh r h.right).bind ?_
  rintro b _ rfl
  exact .refl ht.refl _

/-- Whether a condition holds agrees. -/
theorem holds_agree (ht : Tolerance E f) (hh : c.host = d.host) :
    ∀ b : Condition, LookUpAlike E f c d b.patterns →
      Agree E Eq (b.holds c) ((b.mapPatterns f).holds d)
  | .single e, h => by
    refine (value_agree ht hh e h).bind ?_
    rintro v _ rfl
    cases v with
    | bool b => exact .lift (.ok rfl)
    | _ => exact .lift (.error (ht.boolean e _))
  | .both a b, h => (holds_agree ht hh a h.left).choose (holds_agree ht hh b h.right) (.pure rfl)
  | .either a b, h => (holds_agree ht hh a h.left).choose (.pure rfl) (holds_agree ht hh b h.right)
  | .negated a, h => by
    refine (holds_agree ht hh a h).bind ?_
    rintro x _ rfl
    exact .pure rfl
  | .compare op l r, h => comparison_agree ht hh op l r h
  | .present e, h => isPresent_agree ht hh e h
  | .ofKind e k, h => isOfKind_agree ht hh e k h

end Condition

/-! ### Outlines -/

/-- The names of a round are names of its loop. -/
theorem Header.Rounds.mem_names {h h' : Header} {s s' : Scope} (hs : h.Rounds h' s s') :
    s.item ∈ h.names ∧ ∀ i ∈ s.index, i ∈ h.names := by
  obtain ⟨hi, hx⟩ := hs.names
  refine ⟨hi ▸ List.mem_cons_self, fun i hm => List.mem_cons_of_mem _ ?_⟩
  exact Option.mem_toList.mpr (hx ▸ hm)

namespace Outline

open Element
open Eval (Agree)

/-- An outline and the one with its patterns replaced agree in related contexts. -/
theorem render_agree (ht : Tolerance E f) {P N : Text → Prop} {C : Context σ → Context σ → Prop}
    (hC : Simulation E f P N C) :
    ∀ {o : Outline}, (∀ p ∈ o.patterns, P p) → (∀ n ∈ o.names, N n) →
      ∀ {c d : Context σ}, C c d → Agree E Eq (o.render c) ((o.mapPatterns f).render d) := by
  intro o
  induction o with
  | done => exact fun _ _ _ _ _ => .pure rfl
  | text t n ih => exact fun hp hn _ _ hc => agree_text t (ih hp hn hc)
  | emit e n ih =>
    intro hp hn c d hc
    have he : LookUpAlike E f c d e.patterns := fun p hm =>
      hC.lookup hc (hp p (List.mem_append_left _ hm))
    exact agree_emit ((text_agree ht (hC.host hc) e he).mapError fun _ _ => ht.report e)
      (ih (fun p hm => hp p (List.mem_append_right _ hm)) hn hc)
  | branch b y z n ihy ihz ihn =>
    intro hp hn c d hc
    simp only [patterns, names, List.mem_append] at hp hn
    have hb : LookUpAlike E f c d b.patterns := fun p hm => hC.lookup hc (hp p (.inl hm))
    exact agree_branch (b.holds_agree ht (hC.host hc) hb)
      (ihy (fun p hm => hp p (.inr (.inl hm))) (fun m hm => hn m (.inl hm)) hc)
      (ihz (fun p hm => hp p (.inr (.inr (.inl hm)))) (fun m hm => hn m (.inr (.inl hm))) hc)
      (ihn (fun p hm => hp p (.inr (.inr (.inr hm)))) (fun m hm => hn m (.inr (.inr hm))) hc)
  | loop h b n ihb ihn =>
    intro hp hn c d hc
    simp only [patterns, names, List.mem_cons, List.mem_append] at hp hn
    refine agree_loop ht.refl (ht.target h.target) (hC.lookup hc (hp h.target (.inl rfl))) ?_
      (ihn (fun p hm => hp p (.inr (.inr hm))) (fun m hm => hn m (.inr (.inr hm))) hc)
    intro s s' hs
    obtain ⟨hi, hx⟩ := hs.mem_names
    obtain rfl := hs.eq rfl rfl
    exact ihb (fun p hm => hp p (.inr (.inl hm))) (fun m hm => hn m (.inr (.inl hm)))
      (hC.enter hc (hn _ (.inl hi)) fun i hm => hn i (.inl (hx i hm)))

end Outline
end MailMerge
