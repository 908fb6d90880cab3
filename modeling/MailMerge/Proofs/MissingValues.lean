import MailMerge.Function
import MailMerge.Proofs.Accesses
import MailMerge.Proofs.Agreement
import MailMerge.Proofs.LexicalScope
import MailMerge.Proofs.Patterns

/-!
# What errors about missing values name

A document fails for want of a value at an emitted element, which is then named as it is displayed,
or at a pattern of a condition or the target of a loop. Scopes strip a pattern on its way to the
element of a round, and the error keeps what arrives there: the pattern as it is written, or, inside
of a loop, what follows the item in it.
-/

namespace MailMerge

/-! ### Errors of other sorts -/

/-- Where a result is an error, it is about anything but a missing value. -/
def FailsOtherwise {α : Type} (r : Except RenderError α) : Prop :=
  ∀ e, r = .error e → e.isMissing = false

namespace FailsOtherwise

variable {α β : Type}

theorem ok (a : α) : FailsOtherwise (.ok a) := nofun

theorem error {e : RenderError} (h : e.isMissing = false) :
    FailsOtherwise (.error e : Except RenderError α) := by
  rintro _ ⟨⟩
  exact h

theorem bind {r : Except RenderError α} {f : α → Except RenderError β} (h : FailsOtherwise r)
    (hf : ∀ a, FailsOtherwise (f a)) : FailsOtherwise (r >>= f) := by
  cases r with
  | error e => exact error (h e rfl)
  | ok a => exact hf a

end FailsOtherwise

theorem Value.coerce_failsOtherwise (t : Text) (k : Kind) : FailsOtherwise (coerce t k) := by
  unfold coerce
  split
  · exact .ok _
  · split
    · exact .ok _
    · split
      · exact .ok _
      · exact .error rfl
  · split
    · exact .ok _
    · exact .error rfl
  · exact .ok _
  · exact .ok _
  · exact .error rfl

theorem Value.order_failsOtherwise (a b : Value) : FailsOtherwise (a.order b) := by
  unfold order
  split
  · exact .ok _
  · exact .ok _
  · exact .ok _
  · exact .error rfl
  · exact .error rfl
  · exact .error rfl

theorem Value.satisfies_failsOtherwise (op : Comparison) (a b : Value) :
    FailsOtherwise (a.satisfies op b) := by
  refine (a.order_failsOtherwise b).bind fun o => ?_
  split
  · exact .error rfl
  · exact .ok _

theorem Element.asNumber_failsOtherwise (e : Element) (v : Value) :
    FailsOtherwise (e.asNumber v) := by
  unfold asNumber
  split
  · exact .ok _
  · exact .error rfl

theorem Condition.asBoolean_failsOtherwise (e : Element) (v : Value) :
    FailsOtherwise (asBoolean e v) := by
  unfold asBoolean
  split
  · exact .ok _
  · exact .error rfl

theorem Record.read_failsOtherwise (data : Bytes) : FailsOtherwise (read data) := by
  unfold read
  split
  · exact .ok _
  · exact .error rfl

theorem Record.elements_failsOtherwise (data : Bytes) : FailsOtherwise (elements data) := by
  refine (read_failsOtherwise data).bind fun d => ?_
  split
  · exact .ok _
  · exact .error rfl

theorem Record.members_failsOtherwise (data : Bytes) : FailsOtherwise (members data) := by
  refine (read_failsOtherwise data).bind fun d => ?_
  split
  · exact .ok _
  · exact .error rfl

theorem Header.rounds_failsOtherwise (h : Header) (raw : Text) (k : Kind) :
    FailsOtherwise (h.rounds raw k) := by
  unfold rounds
  split
  · exact (Record.elements_failsOtherwise _).bind fun es => .ok _
  · exact (Record.members_failsOtherwise _).bind fun ms => .ok _
  · exact .error rfl

/-! ### Computations that miss -/

namespace Eval

variable {σ α β : Type} {P Q : RenderError → Prop}

/-- Where a computation fails for want of a value, its error is one of the given ones. -/
def MissesOnly (P : RenderError → Prop) (x : Eval σ α) : Prop :=
  ∀ s e, (x s).result = .error e → e.isMissing = true → P e

namespace MissesOnly

theorem mono {x : Eval σ α} (h : MissesOnly P x) (hPQ : ∀ e, P e → Q e) : MissesOnly Q x :=
  fun s e he hm => hPQ e (h s e he hm)

theorem lift {r : Except RenderError α} (h : ∀ e, r = .error e → e.isMissing = true → P e) :
    MissesOnly P (Eval.lift r : Eval σ α) :=
  fun _ e he hm => h e he hm

/-- What fails for another reason. -/
theorem otherwise {r : Except RenderError α} (h : FailsOtherwise r) :
    MissesOnly P (Eval.lift r : Eval σ α) := by
  intro s e he hm
  rw [h e he] at hm
  cases hm

theorem pure (a : α) : MissesOnly P (Pure.pure a : Eval σ α) := otherwise (.ok a)

theorem note (e : Event) : MissesOnly P (Eval.note e : Eval σ Unit) := fun _ _ he => nomatch he

/-- One computation after another, which may rely on the result. -/
theorem bind_of {x : Eval σ α} {f : α → Eval σ β} (h : MissesOnly P x)
    (hf : ∀ a s, (x s).result = .ok a → MissesOnly P (f a)) : MissesOnly P (x >>= f) := by
  intro s e he hm
  change (x.andThen f s).result = .error e at he
  unfold andThen at he
  cases hx : x s with
  | mk r es t =>
    rw [hx] at he
    cases r with
    | error e' =>
      cases he
      exact h s e (by rw [hx]) hm
    | ok a => exact hf a s (by rw [hx]) t e he hm

theorem bind {x : Eval σ α} {f : α → Eval σ β} (h : MissesOnly P x) (hf : ∀ a, MissesOnly P (f a)) :
    MissesOnly P (x >>= f) :=
  h.bind_of fun a _ _ => hf a

theorem mapError {x : Eval σ α} {f : RenderError → RenderError} (h : MissesOnly Q x)
    (hf : ∀ e, (f e).isMissing = true → e.isMissing = true) (hP : ∀ e, Q e → P (f e)) :
    MissesOnly P (x.mapError f) := by
  intro s e he hm
  change (x s).result.mapError f = .error e at he
  cases hx : (x s).result with
  | ok a =>
    rw [hx] at he
    cases he
  | error e' =>
    rw [hx] at he
    cases he
    exact hP e' (h s e' hx (hf e' hm))

theorem choose {x : Eval σ Bool} {y z : Eval σ α} (h : MissesOnly P x) (hy : MissesOnly P y)
    (hz : MissesOnly P z) : MissesOnly P (do if ← x then y else z) := by
  refine h.bind fun v => ?_
  cases v with
  | true => exact hy
  | false => exact hz

theorem concat {f : α → Eval σ Text} {as : List α} (h : ∀ a ∈ as, MissesOnly P (f a)) :
    MissesOnly P (Eval.concat f as) := by
  induction as with
  | nil => exact pure _
  | cons a as ih =>
    obtain ⟨ha, has⟩ := List.forall_mem_cons.1 h
    exact ha.bind fun t => (ih has).bind fun rest => pure _

/-- A test answers a missing value with no. -/
theorem test {x : Eval σ α} {f : Except RenderError α → Eval σ Bool}
    (hok : ∀ a, MissesOnly P (f (.ok a)))
    (herr : ∀ e, f (.error e) = if e.isMissing then Pure.pure false else .fail e) :
    MissesOnly P (x.attempt >>= f) := by
  have hx : MissesOnly P x.attempt := fun _ _ he => nomatch he
  refine hx.bind fun r => ?_
  cases r with
  | ok a => exact hok a
  | error e =>
    rw [herr]
    cases hm : e.isMissing with
    | true => exact pure false
    | false => exact otherwise (.error hm)

end MissesOnly
end Eval

open Eval (MissesOnly)

/-! ### Patterns and what arrives of them -/

/-- A pattern that is written inside of loops with the given items. -/
structure Site where
  items : List Text
  pattern : Text

/-- What an error names of a pattern: all of it, or what follows the item of a loop in it. -/
def Site.Shows (site : Site) (q : Text) : Prop :=
  q = site.pattern ∨
    q ≠ [] ∧ Pattern.isContinuation q = true ∧ ∃ x ∈ site.items, site.pattern = x ++ q

theorem Site.Shows.outer {items : List Text} {p q : Text} (h : Site.Shows ⟨items, p⟩ q) (x : Text) :
    Site.Shows ⟨x :: items, p⟩ q := by
  rcases h with rfl | ⟨hq, hc, y, hy, hp⟩
  · exact .inl rfl
  · exact .inr ⟨hq, hc, y, List.mem_cons_of_mem x hy, hp⟩

/-- The pattern that arrives where it leads to nothing or is looked up. -/
def Route.pattern? : Route → Option Text
  | .found _ _ => none
  | .absent p => some p
  | .ask _ p => some p

/-- What scopes make of a path: by induction on them, the innermost one first. -/
theorem Scope.shows_of_route {scopes : List Scope} (h : ∀ s ∈ scopes, s.HasPlainNames)
    (data : Bytes) {p q : Text} (hp : Pattern.IsWritten p)
    (hq : (route scopes data p).pattern? = some q) :
    Site.Shows ⟨scopes.map Scope.item, p⟩ q := by
  obtain ⟨name, steps, rfl, hn, hs, -⟩ := hp.isPath.split
  have hc := hs.isContinuation
  clear hp hs
  induction scopes with
  | nil => exact .inl (Option.some.inj hq).symm
  | cons s outer ih =>
    rw [route_path h data hn hc] at hq
    split at hq
    · cases hq
    · split at hq
      · next hitem =>
        split at hq
        · split at hq
          · exact .inl (Option.some.inj hq).symm
          · cases hq
        · next hne =>
          split at hq
          · cases hq
            exact .inr ⟨hne, hc, s.item, List.mem_cons_self, by rw [hitem]⟩
          · exact .inl (Option.some.inj hq).symm
      · exact (ih (fun t ht => h t (List.mem_cons_of_mem s ht)) hq).outer s.item

/-! ### Contexts -/

/-- Calls of user functions fail for want of a function of that name or since the function fails. -/
def Host.Reports {σ : Type} (host : Host σ) : Prop :=
  ∀ f as s e, (host.call f as s).1 = .error e →
    (∃ n, e = .unknownFunction n) ∨ ∃ n m, e = .functionFailure n m

theorem Host.Reports.failsOtherwise {σ : Type} {host : Host σ} (h : host.Reports) (f : Text)
    (as : List Text) (s : σ) : FailsOtherwise (host.call f as s).1 := by
  intro e he
  rcases h f as s e he with ⟨n, rfl⟩ | ⟨n, m, rfl⟩
  · rfl
  · rfl

theorem Functions.reports_host (fs : Functions) : (host fs).Reports := by
  have hfails : ∀ {α β : Type} (r : Except Text α) (c : β) (f : Text) (e : RenderError),
      (r.mapError (.functionFailure f), c).1 = .error e → ∃ n m, e = .functionFailure n m := by
    intro α β r c f e h
    cases r with
    | error m =>
      cases h
      exact ⟨f, m, rfl⟩
    | ok v => cases h
  intro f as s e h
  change (call fs f as s).1 = .error e at h
  unfold call at h
  split at h
  · cases h
    exact .inl ⟨f, rfl⟩
  · split at h
    · split at h
      · exact .inr (hfails _ _ f e h)
      · exact .inr (hfails _ _ f e h)
    · cases h
      exact .inl ⟨f, rfl⟩

/-- An error that names something of a pattern of one of the sites, or one of the elements. -/
def Named (sites : List Site) (elements : List Element) (e : RenderError) : Prop :=
  (∃ site ∈ sites, ∃ q, e = .notExists q ∧ site.Shows q) ∨
    ∃ element ∈ elements, e = .invalidAccess element.display

theorem Named.mono {sites sites' : List Site} {elements elements' : List Element}
    (hs : sites ⊆ sites') (he : elements ⊆ elements') (e : RenderError)
    (h : Named sites elements e) : Named sites' elements' e := by
  rcases h with ⟨site, hsite, hq⟩ | ⟨element, helement, rfl⟩
  · exact .inl ⟨site, hs hsite, hq⟩
  · exact .inr ⟨element, he helement, rfl⟩

namespace Context

variable {σ : Type}

/-- A context of a record, inside of loops whose names are plain. -/
structure Regular (ctx : Context σ) : Prop where
  root : ctx.root = Record.get
  names : ∀ s ∈ ctx.scopes, s.HasPlainNames
  host : ∀ h ∈ ctx.host, h.Reports

/-- The items of the loops around, that of the innermost one first. -/
def items (ctx : Context σ) : List Text := ctx.scopes.map Scope.item

variable {ctx : Context σ} {P : RenderError → Prop}

theorem Regular.enter (h : ctx.Regular) {s : Scope} (hs : s.HasPlainNames) :
    (ctx.enter s).Regular :=
  ⟨h.root, List.forall_mem_cons.2 ⟨hs, h.names⟩, h.host⟩

/-- A lookup of a path finds something, or says what arrived of the path. -/
theorem Regular.lookup_misses (h : ctx.Regular) {p : Text} (hp : Pattern.IsWritten p) :
    MissesOnly (fun e => ∃ q, e = .notExists q ∧ Site.Shows ⟨ctx.items, p⟩ q) (ctx.lookup p) := by
  have hshows : ∀ q, (Scope.route ctx.scopes ctx.data p).pattern? = some q →
      Site.Shows ⟨ctx.items, p⟩ q := fun q => Scope.shows_of_route h.names ctx.data hp
  unfold lookup
  cases hr : Scope.route ctx.scopes ctx.data p with
  | found t k => exact .pure _
  | absent q =>
    refine .lift fun e he _ => ?_
    cases he
    exact ⟨q, rfl, hshows q (by rw [hr]; rfl)⟩
  | ask data q =>
    refine (MissesOnly.note _).bind fun _ => .lift fun e he _ => ?_
    rw [h.root] at he
    rcases Record.get_cases data q with ⟨w, hw, -⟩ | hw
    · rw [hw] at he
      cases he
    · rw [hw] at he
      cases he
      exact ⟨q, rfl, hshows q (by rw [hr]; rfl)⟩

/-- A call misses what its arguments miss. -/
theorem Regular.call_misses (h : ctx.Regular) (f : Text) {x : Eval σ (List Text)}
    (hx : MissesOnly P x) : MissesOnly P (ctx.call f x) := by
  unfold call
  cases hh : ctx.host with
  | none => exact .otherwise (.error rfl)
  | some host =>
    refine hx.bind fun as => (MissesOnly.note _).bind fun _ => ?_
    intro s e he hm
    rw [(h.host host hh).failsOtherwise f as s e he] at hm
    cases hm

end Context

/-! ### Elements and conditions -/

namespace Element

open Context (Regular)

variable {σ : Type} {ctx : Context σ} {P : RenderError → Prop}

theorem compute_misses (op : Arithmetic) (l r : Element) {x y : Eval σ Value}
    (hx : MissesOnly P x) (hy : MissesOnly P y) : MissesOnly P (compute op l r x y) := by
  refine hx.bind fun v => (MissesOnly.otherwise (l.asNumber_failsOtherwise v)).bind fun a => ?_
  exact hy.bind fun w => (MissesOnly.otherwise (r.asNumber_failsOtherwise w)).bind fun b => .pure _

mutual

/-- The value of an element misses what lookups of its patterns miss. -/
theorem value_misses (h : ctx.Regular) :
    ∀ e : Element, (∀ p ∈ e.patterns, MissesOnly P (ctx.lookup p)) → MissesOnly P (e.value ctx)
  | .access p, hp => by
    rw [value]
    exact (hp p (List.mem_singleton_self p)).bind fun found =>
      .otherwise (Value.coerce_failsOtherwise _ _)
  | .constant _ _, _ => by
    rw [value]
    exact .pure _
  | .arithmetic op l r, hp => by
    rw [value]
    simp only [patterns, List.forall_mem_append] at hp
    exact (compute_misses op l r (value_misses h l hp.1) (value_misses h r hp.2)).bind fun _ =>
      .pure _
  | .call f as, hp => by
    rw [value]
    exact h.call_misses f (texts_misses h as hp)

/-- So does its text. -/
theorem text_misses (h : ctx.Regular) :
    ∀ e : Element, (∀ p ∈ e.patterns, MissesOnly P (ctx.lookup p)) → MissesOnly P (e.text ctx)
  | .access p, hp => by
    rw [text]
    exact (hp p (List.mem_singleton_self p)).bind fun _ => .pure _
  | .constant _ _, _ => by
    rw [text]
    exact .pure _
  | .arithmetic op l r, hp => by
    rw [text]
    simp only [patterns, List.forall_mem_append] at hp
    exact (compute_misses op l r (value_misses h l hp.1) (value_misses h r hp.2)).bind fun _ =>
      .pure _
  | .call f as, hp => by
    rw [text]
    exact (h.call_misses f (texts_misses h as hp)).bind fun _ => .pure _

/-- So do the texts of several. -/
theorem texts_misses (h : ctx.Regular) :
    ∀ es : List Element, (∀ p ∈ patternsAll es, MissesOnly P (ctx.lookup p)) →
      MissesOnly P (texts ctx es)
  | [], _ => by
    rw [texts]
    exact .pure _
  | e :: es, hp => by
    rw [texts]
    simp only [patternsAll, List.forall_mem_append] at hp
    exact (text_misses h e hp.1).bind fun t => (texts_misses h es hp.2).bind fun ts => .pure _

end

theorem isPresent_misses (e : Element) : MissesOnly P (e.isPresent ctx) := by
  cases e with
  | access p => exact .test (fun _ => .pure _) fun _ => rfl
  | constant t v => exact .test (fun _ => .pure _) fun _ => rfl
  | arithmetic op l r => exact .test (fun _ => .pure _) fun _ => rfl
  | call f as => exact .test (fun _ => .pure _) fun _ => rfl

/-- An emitted element that misses something is named itself. -/
theorem emit_misses (h : ctx.Regular) (e : Element)
    (hp : ∀ p ∈ e.patterns, Pattern.IsWritten p) (sites : List Site) :
    MissesOnly (Named sites [e]) ((e.text ctx).mapError e.reportMissing) := by
  have htext : MissesOnly (fun err => ∃ q, err = .notExists q) (e.text ctx) :=
    text_misses h e fun p hm => (h.lookup_misses (hp p hm)).mono fun err ⟨q, hq, _⟩ => ⟨q, hq⟩
  refine htext.mapError (fun err hm => ?_) fun err ⟨q, hq⟩ => ?_
  · cases err with
    | notExists q => rfl
    | _ => exact hm
  · rw [hq]
    exact .inr ⟨e, List.mem_singleton_self e, rfl⟩

end Element

namespace Condition

variable {σ : Type} {ctx : Context σ} {P : RenderError → Prop}

/-- The patterns that a condition needs. Whether an element is present or of a kind is known without
its value. -/
def demanded : Condition → List Text
  | .single e => e.patterns
  | .both a b => a.demanded ++ b.demanded
  | .either a b => a.demanded ++ b.demanded
  | .negated a => a.demanded
  | .compare _ l r => l.patterns ++ r.patterns
  | .present _ => []
  | .ofKind _ _ => []

theorem append_subset_append {α : Type} {a b c d : List α} (h : a ⊆ c) (h' : b ⊆ d) :
    a ++ b ⊆ c ++ d :=
  List.append_subset.2 ⟨List.subset_append_of_subset_left d h,
    List.subset_append_of_subset_right c h'⟩

theorem demanded_subset (c : Condition) : c.demanded ⊆ c.patterns := by
  induction c with
  | single e => exact List.Subset.refl _
  | both a b iha ihb => exact append_subset_append iha ihb
  | either a b iha ihb => exact append_subset_append iha ihb
  | negated a ih => exact ih
  | compare op l r => exact List.Subset.refl _
  | present e => exact List.nil_subset _
  | ofKind e k => exact List.nil_subset _

/-- A condition misses what lookups of the patterns that it needs miss. -/
theorem holds_misses (h : ctx.Regular) :
    ∀ c : Condition, (∀ p ∈ c.demanded, MissesOnly P (ctx.lookup p)) → MissesOnly P (c.holds ctx)
  | .single e, hp =>
    (e.value_misses h hp).bind fun v => .otherwise (asBoolean_failsOtherwise e v)
  | .both a b, hp => by
    simp only [demanded, List.forall_mem_append] at hp
    exact (holds_misses h a hp.1).choose (holds_misses h b hp.2) (.pure _)
  | .either a b, hp => by
    simp only [demanded, List.forall_mem_append] at hp
    exact (holds_misses h a hp.1).choose (.pure _) (holds_misses h b hp.2)
  | .negated a, hp => (holds_misses h a hp).bind fun _ => .pure _
  | .compare op l r, hp => by
    simp only [demanded, List.forall_mem_append] at hp
    exact (l.value_misses h hp.1).bind fun v => (r.value_misses h hp.2).bind fun w =>
      .otherwise (v.satisfies_failsOtherwise op w)
  | .present e, _ => e.isPresent_misses
  | .ofKind e k, _ => .test (fun _ => .pure _) fun _ => rfl

end Condition

/-! ### Templates -/

namespace Outline

variable {σ : Type}

/-- Where a document can fail for want of the value of a pattern: the patterns that conditions need
and the targets of loops, each inside of its loops. -/
def sites (items : List Text) : Outline → List Site
  | .done => []
  | .text _ n => n.sites items
  | .emit _ n => n.sites items
  | .branch c y z n =>
    c.demanded.map (⟨items, ·⟩) ++ (y.sites items ++ (z.sites items ++ n.sites items))
  | .loop h b n => ⟨items, h.target⟩ :: (b.sites (h.item :: items) ++ n.sites items)

/-- The elements that are emitted. -/
def emitted : Outline → List Element
  | .done => []
  | .text _ n => n.emitted
  | .emit e n => e :: n.emitted
  | .branch _ y z n => y.emitted ++ (z.emitted ++ n.emitted)
  | .loop _ b n => b.emitted ++ n.emitted

end Outline

/-- The names of a loop's rounds are those of the loop. -/
theorem Header.names_of_rounds {h : Header} {raw : Text} {k : Kind} {scopes : List Scope}
    (hr : h.rounds raw k = .ok scopes) {s : Scope} (hs : s ∈ scopes) :
    s.item = h.item ∧ s.index = h.index := by
  have halike : Alike Eq (List.Forall₂ (Rounds h h)) (h.rounds raw k) (h.rounds raw k) :=
    rounds_alike (fun _ => rfl) (fun _ => rfl) raw k
  rw [hr] at halike
  cases halike with
  | ok hf => exact (List.forall₂_same.1 hf s hs).names

namespace Outline

variable {σ : Type} {ctx : Context σ}

/-- What an outline can miss inside of loops with the given items. -/
def CanMiss (o : Outline) (items : List Text) : RenderError → Prop :=
  Named (o.sites items) o.emitted

/-- What a part of an outline can miss is named in the whole of it. -/
theorem misses_within {o part : Outline} {items items' : List Text} {x : Eval σ Text}
    (h : MissesOnly (part.CanMiss items') x) (hs : part.sites items' ⊆ o.sites items)
    (he : part.emitted ⊆ o.emitted) : MissesOnly (o.CanMiss items) x :=
  h.mono (Named.mono hs he)

theorem misses_emit (h : ctx.Regular) {e : Element} {n : Outline}
    (hp : ∀ p ∈ e.patterns, Pattern.IsWritten p)
    (hn : MissesOnly (n.CanMiss ctx.items) (n.render ctx)) :
    MissesOnly ((emit e n).CanMiss ctx.items) ((emit e n).render ctx) := by
  have he : MissesOnly ((emit e n).CanMiss ctx.items) ((e.text ctx).mapError e.reportMissing) :=
    (e.emit_misses h hp (n.sites ctx.items)).mono
      (Named.mono (List.Subset.refl _) (List.cons_subset_cons e (List.nil_subset n.emitted)))
  have hnext : MissesOnly ((emit e n).CanMiss ctx.items) (n.render ctx) :=
    misses_within hn (List.Subset.refl _) (List.subset_cons_self e n.emitted)
  exact (MissesOnly.note _).bind fun _ => he.bind fun _ => hnext.bind fun _ => .pure _

theorem misses_branch (h : ctx.Regular) {c : Condition} {y z n : Outline}
    (hp : ∀ p ∈ c.patterns, Pattern.IsWritten p)
    (hy : MissesOnly (y.CanMiss ctx.items) (y.render ctx))
    (hz : MissesOnly (z.CanMiss ctx.items) (z.render ctx))
    (hn : MissesOnly (n.CanMiss ctx.items) (n.render ctx)) :
    MissesOnly ((branch c y z n).CanMiss ctx.items) ((branch c y z n).render ctx) := by
  have hc : MissesOnly ((branch c y z n).CanMiss ctx.items) (c.holds ctx) := by
    refine c.holds_misses h fun p hm => ?_
    refine (h.lookup_misses (hp p (c.demanded_subset hm))).mono fun e he => .inl ⟨_, ?_, he⟩
    exact List.mem_append_left _ (List.mem_map_of_mem hm)
  have hyes : MissesOnly ((branch c y z n).CanMiss ctx.items) (y.render ctx) :=
    misses_within hy (by simp [sites]) (by simp [emitted])
  have hno : MissesOnly ((branch c y z n).CanMiss ctx.items) (z.render ctx) :=
    misses_within hz (fun _ hm => by simp [sites, hm]) (by simp [emitted])
  have hnext : MissesOnly ((branch c y z n).CanMiss ctx.items) (n.render ctx) :=
    misses_within hn (fun _ hm => by simp [sites, hm]) (by simp [emitted])
  exact (MissesOnly.note _).bind fun _ => (hc.choose hyes hno).bind fun _ =>
    hnext.bind fun _ => .pure _

/-- The body of a loop is rendered in contexts with one more item. -/
theorem misses_loop (h : ctx.Regular) {hd : Header} {b n : Outline}
    (hp : Pattern.IsWritten hd.target)
    (hnames : ∀ name ∈ hd.item :: hd.index.toList, Token.isPlainName name = true)
    (hb : ∀ {inner : Context σ}, inner.Regular →
      MissesOnly (b.CanMiss inner.items) (b.render inner))
    (hn : MissesOnly (n.CanMiss ctx.items) (n.render ctx)) :
    MissesOnly ((loop hd b n).CanMiss ctx.items) ((loop hd b n).render ctx) := by
  have htarget : MissesOnly ((loop hd b n).CanMiss ctx.items) (ctx.lookup hd.target) :=
    (h.lookup_misses hp).mono fun e he => .inl ⟨_, List.mem_cons_self, he⟩
  have hround : ∀ {raw : Text} {k : Kind} {scopes : List Scope}, hd.rounds raw k = .ok scopes →
      ∀ s ∈ scopes, MissesOnly ((loop hd b n).CanMiss ctx.items) (b.render (ctx.enter s)) := by
    intro raw k scopes hr s hs
    obtain ⟨hitem, hindex⟩ := Header.names_of_rounds hr hs
    have hplain : s.HasPlainNames := by
      refine ⟨hitem ▸ hnames _ List.mem_cons_self,
        fun i hi => hnames i (List.mem_cons_of_mem _ ?_)⟩
      exact Option.mem_toList.2 (hindex ▸ hi)
    have hitems : (ctx.enter s).items = hd.item :: ctx.items := congrArg (· :: _) hitem
    have hbody := hb (h.enter hplain)
    rw [hitems] at hbody
    refine misses_within hbody ?_ (by simp [emitted])
    exact List.subset_cons_of_subset _ (List.subset_append_left _ _)
  have hnext : MissesOnly ((loop hd b n).CanMiss ctx.items) (n.render ctx) := by
    refine misses_within hn ?_ (by simp [emitted])
    exact List.subset_cons_of_subset _ (List.subset_append_right _ _)
  refine (MissesOnly.note _).bind fun _ => htarget.bind fun found => ?_
  refine (MissesOnly.otherwise (hd.rounds_failsOtherwise found.1 found.2)).bind_of
    fun scopes state hr => ?_
  refine (MissesOnly.concat fun s hs => ?_).bind fun _ => hnext.bind fun _ => .pure _
  exact (MissesOnly.note _).bind fun _ => hround hr s hs

/-- What rendering an outline misses is named by one of its sites or one of its emitted elements: by
induction on the outline, inside of more and more loops. -/
theorem render_misses (o : Outline) : (∀ p ∈ o.patterns, Pattern.IsWritten p) →
    (∀ n ∈ o.names, Token.isPlainName n = true) → ∀ {ctx : Context σ}, ctx.Regular →
      MissesOnly (o.CanMiss ctx.items) (o.render ctx) := by
  induction o with
  | done => exact fun _ _ _ _ => .pure _
  | text t n ih =>
    intro hp hn ctx h
    exact (MissesOnly.note _).bind fun _ => (ih hp hn h).bind fun _ => .pure _
  | emit e n ih =>
    intro hp hn ctx h
    simp only [patterns, List.forall_mem_append] at hp
    exact misses_emit h hp.1 (ih hp.2 hn h)
  | branch c y z n ihy ihz ihn =>
    intro hp hn ctx h
    simp only [patterns, names, List.forall_mem_append] at hp hn
    obtain ⟨hpc, hpy, hpz, hpn⟩ := hp
    obtain ⟨hny, hnz, hnn⟩ := hn
    exact misses_branch h hpc (ihy hpy hny h) (ihz hpz hnz h) (ihn hpn hnn h)
  | loop hd b n ihb ihn =>
    intro hp hn ctx h
    simp only [patterns, names, List.forall_mem_cons, List.forall_mem_append] at hp hn
    obtain ⟨hpt, hpb, hpn⟩ := hp
    obtain ⟨hnh, hnb, hnn⟩ := hn
    exact misses_loop h hpt hnh (ihb hpb hnb) (ihn hpn hnn h)

end Outline

namespace Template

/-- Where a document of a record fails for want of a value, in or outside of loops, with or without
user functions: the pattern in the error is that of a condition or the target of a loop, as it is
written or, inside of loops, what follows the item of one of them in it; and the text in an error
about an emitted element is how that element is displayed. -/
theorem missing_values_named {σ : Type} {source : Text} {t : Template} (h : parse source = .ok t)
    (record : Bytes) {host : Option (Host σ)} (hh : ∀ f ∈ host, f.Reports) (s : σ) :
    (∀ q, (t.render (.ofRecord record host) s).result = .error (.notExists q) →
      ∃ site ∈ t.outline.sites [], site.Shows q) ∧
    ∀ x, (t.render (.ofRecord record host) s).result = .error (.invalidAccess x) →
      ∃ e ∈ t.outline.emitted, x = e.display := by
  obtain ⟨hp, hn⟩ := wellFormed_of_parse h
  have hregular : (Context.ofRecord record host).Regular := ⟨rfl, nofun, hh⟩
  have hmisses := t.outline.render_misses hp hn hregular s
  refine ⟨fun q hq => ?_, fun x hx => ?_⟩
  · rcases hmisses _ hq rfl with ⟨site, hs, q', he, hshows⟩ | ⟨e, -, he⟩
    · cases he
      exact ⟨site, hs, hshows⟩
    · cases he
  · rcases hmisses _ hx rfl with ⟨site, -, q', he, -⟩ | ⟨e, hm, he⟩
    · cases he
    · cases he
      exact ⟨e, hm, rfl⟩

/-- A condition and an argument of a call inside of a loop, each with a value that is missing. -/
theorem missing_condition_argument :
    let empty := Utf8.encode "\x7b\"xs\": [\x7b\x7d]\x7d".toList
    let half := Utf8.encode "\x7b\"xs\": [\x7b\"a\": true\x7d]\x7d".toList
    let host := some (Functions.host [(['f'], .upper)])
    ∃ t, parse "$for x in xs$$if x->a$$f(x->b)$$end$$end$".toList = .ok t ∧
      (t.render (.ofRecord empty host) []).result = .error (.notExists "->a".toList) ∧
      (∃ site ∈ t.outline.sites [], site.Shows "->a".toList) ∧
      (t.render (.ofRecord half host) []).result = .error (.invalidAccess "f(x->b)".toList) ∧
      ∃ e ∈ t.outline.emitted, "f(x->b)".toList = e.display := by
  intro empty half host
  let o : Outline := .loop ⟨"x".toList, none, "xs".toList⟩
    (.branch (.single (.access "x->a".toList))
      (.emit (.call ['f'] [.access "x->b".toList]) .done) .done .done) .done
  have h : parse "$for x in xs$$if x->a$$f(x->b)$$end$$end$".toList = .ok (ofOutline o) := rfl
  have hh : ∀ f ∈ host, f.Reports := by
    intro f hf
    rw [← Option.some.inj hf]
    exact Functions.reports_host _
  have hempty : ((ofOutline o).render (.ofRecord empty host) []).result =
      .error (.notExists "->a".toList) := by decide +kernel
  have hhalf : ((ofOutline o).render (.ofRecord half host) []).result =
      .error (.invalidAccess "f(x->b)".toList) := by decide +kernel
  exact ⟨_, h, hempty, (missing_values_named h empty hh []).1 _ hempty, hhalf,
    (missing_values_named h half hh []).2 _ hhalf⟩

/-- The pattern of a condition inside of a loop is named without the item, as no template could
write it. -/
theorem missing_condition_stripped : ¬ ∀ (source : Text) (t : Template) (record : Bytes) (q : Text),
    parse source = .ok t →
      (t.render (.ofRecord record (none : Option (Host Unit))) ()).result = .error (.notExists q) →
        q ∈ t.outline.patterns := by
  intro h
  let o : Outline := .loop ⟨"x".toList, none, "xs".toList⟩
    (.branch (.single (.access "x->a".toList)) (.text "y".toList .done) .done .done) .done
  have hparse : parse "$for x in xs$$if x->a$y$end$$end$".toList = .ok (ofOutline o) := rfl
  have hresult : ((ofOutline o).render (.ofRecord
      (Utf8.encode "\x7b\"xs\": [\x7b\x7d]\x7d".toList) (none : Option (Host Unit))) ()).result =
        .error (.notExists "->a".toList) := by decide +kernel
  have hmem := h _ _ _ _ hparse hresult
  rw [outline_ofOutline] at hmem
  revert hmem
  decide

end Template
end MailMerge
