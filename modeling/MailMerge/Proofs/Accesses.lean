import MailMerge.Proofs.NumberTexts
import MailMerge.Proofs.PlainRendering

/-!
# What is asked about an access

The text of an access, its value, whether it is present and whether it is of a kind are computed
apart, and only some of them read what a lookup gives. They agree nevertheless: the data that
lookups find, in the record and in the scopes of loops around, writes values of its kind.
-/

namespace MailMerge

open Eval (SameResult)

/-! ### What lookups give -/

/-- The element of a scope is the text of a document. -/
def Scope.Describes (s : Scope) : Prop :=
  ∃ w, s.element = Utf8.encode (Record.describe w).1 ∧ s.kind = (Record.describe w).2

namespace Record

theorem elements_cases {data : Bytes} {es : List (Text × Kind)} (h : elements data = .ok es) :
    ∃ items : List Json, es = items.map describe := by
  unfold elements at h
  obtain ⟨d, -, h⟩ := Parsing.ok_of_bind h
  split at h
  · cases h
    exact ⟨_, rfl⟩
  · cases h

theorem members_cases {data : Bytes} {es : List (Text × Text × Kind)}
    (h : members data = .ok es) :
    ∃ ms : List (Text × Json), es = ms.map fun m => (m.1, describe m.2) := by
  unfold members at h
  obtain ⟨d, -, h⟩ := Parsing.ok_of_bind h
  split at h
  · cases h
    exact ⟨_, rfl⟩
  · cases h

/-- A lookup in a record gives the text and the kind of a document other than null, or nothing. -/
theorem get_cases (data : Bytes) (p : Text) :
    (∃ w, get data p = .ok (describe w) ∧ (describe w).2 ≠ .missing) ∨
      get data p = .error (.notExists p) := by
  cases hr : Json.read data with
  | error f =>
    right
    unfold get
    rw [hr]
  | ok d =>
    rw [get_of_read hr]
    cases resolve d p with
    | none => exact .inr rfl
    | some w =>
      by_cases hw : (describe w).2 = .missing
      · exact .inr (if_pos hw)
      · exact .inl ⟨w, if_neg hw, hw⟩

end Record

/-- The scopes of a loop's rounds describe documents. -/
theorem Header.describes_of_rounds {h : Header} {raw : Text} {k : Kind} {scopes : List Scope}
    (hr : h.rounds raw k = .ok scopes) {s : Scope} (hs : s ∈ scopes) : s.Describes := by
  unfold rounds at hr
  split at hr
  · obtain ⟨es, he, hr⟩ := Parsing.ok_of_bind hr
    obtain ⟨items, rfl⟩ := Record.elements_cases he
    cases hr
    obtain ⟨⟨⟨t, k⟩, i⟩, hi, rfl⟩ := List.mem_map.mp hs
    obtain ⟨w, -, hw⟩ := List.mem_map.mp (List.fst_mem_of_mem_zipIdx hi)
    exact ⟨w, by rw [hw], by rw [hw]⟩
  · obtain ⟨es, he, hr⟩ := Parsing.ok_of_bind hr
    obtain ⟨ms, rfl⟩ := Record.members_cases he
    cases hr
    obtain ⟨⟨n, t, k⟩, hm, rfl⟩ := List.mem_map.mp hs
    obtain ⟨m, -, hm⟩ := List.mem_map.mp hm
    obtain ⟨-, hd⟩ := Prod.mk.inj hm
    exact ⟨m.2, by rw [hd], by rw [hd]⟩
  · cases hr

/-- What scopes know of a pattern writes a value of its kind, if they describe documents. -/
theorem Scope.writes_of_route {scopes : List Scope} (h : ∀ s ∈ scopes, s.Describes) {data : Bytes}
    {p t : Text} {k : Kind} (hr : route scopes data p = .found t k) : Value.Writes t k := by
  fun_induction route scopes data p with
  | case1 => cases hr
  | case2 s outer data p hi =>
    cases hr
    exact Value.writes_binding s.binding
  | case3 s outer data p hi ha ih => exact ih (fun t ht => h t (List.mem_cons_of_mem s ht)) hr
  | case4 => cases hr
  | case5 s outer data p hi ha hk =>
    obtain ⟨w, he, hw⟩ := h s List.mem_cons_self
    cases hr
    rw [he, hw, Utf8.decodeLossy_encode]
    exact Value.writes_describe w (hw ▸ hk)
  | case6 s outer data p hi c r ha hk ih =>
    exact ih (fun t ht => h t (List.mem_cons_of_mem s ht)) hr
  | case7 => cases hr

/-! ### Contexts -/

namespace Context

variable {σ : Type}

/-- The contexts that rendering builds: that of a record, and one with a further scope for every
round of a loop in such a context. -/
inductive Built : Context σ → Prop where
  | record (data : Bytes) (host : Option (Host σ)) : Built (.ofRecord data host)
  | round {ctx : Context σ} {h : Header} {raw : Text} {k : Kind} {scopes : List Scope} {s : Scope}
      {state : σ} (hc : Built ctx) (hl : (ctx.lookup h.target state).result = .ok (raw, k))
      (hr : h.rounds raw k = .ok scopes) (hs : s ∈ scopes) : Built (ctx.enter s)

variable {ctx : Context σ}

theorem Built.root_eq (h : ctx.Built) : ctx.root = Record.get := by
  induction h with
  | record => rfl
  | round _ _ _ _ ih => exact ih

theorem Built.describes (h : ctx.Built) : ∀ s ∈ ctx.scopes, s.Describes := by
  induction h with
  | record => exact nofun
  | round _ _ hr hs ih => exact List.forall_mem_cons.mpr ⟨Header.describes_of_rounds hr hs, ih⟩

/-- A lookup gives a text that writes a value of its kind, or finds nothing. -/
theorem Built.lookup_cases (h : ctx.Built) (p : Text) :
    ∃ r, SameResult (ctx.lookup p) (Eval.lift r : Eval σ (Text × Kind)) ∧
      ((∃ t k, r = .ok (t, k) ∧ Value.Writes t k) ∨ ∃ q, r = .error (.notExists q)) := by
  unfold lookup
  cases hr : Scope.route ctx.scopes ctx.data p with
  | found t k => exact ⟨_, .pure _, .inl ⟨t, k, rfl, Scope.writes_of_route h.describes hr⟩⟩
  | absent q => exact ⟨_, .lift _, .inr ⟨q, rfl⟩⟩
  | ask data q =>
    refine ⟨Record.get data q, fun _ _ => by rw [h.root_eq]; rfl, ?_⟩
    rcases Record.get_cases data q with ⟨w, hw, hk⟩ | hw
    · exact .inl ⟨_, _, hw, Value.writes_describe w hk⟩
    · exact .inr ⟨q, hw⟩

end Context

/-! ### Questions about an access -/

namespace Element

variable {σ : Type}

/-- A computation whose result is known, and one that depends on nothing else. -/
theorem known_bind {α β : Type} {x : Eval σ α} {r : Except RenderError α}
    (h : SameResult x (Eval.lift r : Eval σ α)) (f : α → Except RenderError β) :
    SameResult (do .lift (f (← x)) : Eval σ β) (Eval.lift (r.bind f) : Eval σ β) := by
  intro s t
  refine ((h.bind fun a => .lift (f a)) s t).trans ?_
  cases r <;> rfl

/-- The answer about a result, where a missing one is answered with no. -/
def answer {α : Type} (f : α → Bool) : Except RenderError α → Except RenderError Bool
  | .ok a => .ok (f a)
  | .error e => if e.isMissing then .ok false else .error e

/-- A computation that goes on with an answer about the result of another one. -/
theorem answered {α : Type} {x : Eval σ α} {r : Except RenderError α} {f : α → Bool}
    {g : Except RenderError α → Eval σ Bool} (h : SameResult x (Eval.lift r : Eval σ α))
    (hok : ∀ a, g (.ok a) = pure (f a))
    (herror : ∀ e, g (.error e) = if e.isMissing then pure false else .fail e) :
    SameResult (do g (← x.attempt)) (Eval.lift (answer f r) : Eval σ Bool) := by
  have hg : ∀ q, SameResult (g q) (Eval.lift (answer f q) : Eval σ Bool) := by
    rintro (e | a)
    · rw [herror, answer]
      split
      · exact .pure _
      · exact .lift _
    · rw [hok]
      exact .pure _
  exact fun s t => (h.attempt.bind hg) s t

section Lookup

variable {ctx : Context σ} {p : Text} {r : Except RenderError (Text × Kind)}
  (h : SameResult (ctx.lookup p) (Eval.lift r : Eval σ (Text × Kind)))
include h

/-- The text of an access is the one that is looked up. -/
theorem text_access : SameResult ((access p).text ctx)
    (Eval.lift (r.bind fun a => .ok a.1) : Eval σ Text) := by
  rw [text]
  exact known_bind h fun a => .ok a.1

/-- The value of an access is the one that the text looked up writes. -/
theorem value_access : SameResult ((access p).value ctx)
    (Eval.lift (r.bind fun a => Value.coerce a.1 a.2) : Eval σ Value) := by
  rw [value]
  exact known_bind h fun a => Value.coerce a.1 a.2

/-- An access is present if anything is looked up. -/
theorem isPresent_access : SameResult ((access p).isPresent ctx)
    (Eval.lift (answer (fun _ => true) r) : Eval σ Bool) := by
  have hunit : SameResult (do let _ ← ctx.lookup p : Eval σ Unit)
      (Eval.lift (r.bind fun _ => .ok ()) : Eval σ Unit) := known_bind h fun _ => .ok ()
  have hanswer : answer (fun _ => true) (r.bind fun _ => .ok ()) = answer (fun _ => true) r := by
    cases r <;> rfl
  rw [← hanswer]
  exact answered hunit (fun _ => rfl) fun _ => rfl

end Lookup

/-- Whether an element is of a kind is answered by its value. -/
theorem isOfKind_of_value {ctx : Context σ} {e : Element} {r : Except RenderError Value}
    (h : SameResult (e.value ctx) (Eval.lift r : Eval σ Value)) (k : Kind) :
    SameResult (e.isOfKind ctx k) (Eval.lift (answer (fun v => v.kind = k) r) : Eval σ Bool) :=
  answered h (fun _ => rfl) fun _ => rfl

end Element

/-! ### All questions at once -/

namespace Context

variable {σ : Type}

/-- An access leads to data: its value is read from its text, it is present, and it is of one of the
kinds of data and of no other. -/
structure Finds (ctx : Context σ) (p : Text) (s : σ) (t : Text) (k : Kind) (v : Value) : Prop where
  text : ((Element.access p).text ctx s).result = .ok t
  value : ((Element.access p).value ctx s).result = .ok v
  coerced : (ctx.lookup p s).result = .ok (t, k) ∧ Value.coerce t k = .ok v
  present : ((Condition.present (.access p)).holds ctx s).result = .ok true
  kind : k ∈ Kind.ofData
  ofKind : ∀ k' ∈ Kind.ofData,
    ((Condition.ofKind (.access p) k').holds ctx s).result = .ok (decide (k' = k))

/-- An access leads to nothing: it has neither a text nor a value, it is not present, and it is of
no kind. -/
structure Misses (ctx : Context σ) (p : Text) (s : σ) : Prop where
  text : ∃ q, ((Element.access p).text ctx s).result = .error (.notExists q)
  value : ∃ q, ((Element.access p).value ctx s).result = .error (.notExists q)
  present : ((Condition.present (.access p)).holds ctx s).result = .ok false
  ofKind : ∀ k ∈ Kind.ofData, ((Condition.ofKind (.access p) k).holds ctx s).result = .ok false

/-- What is asked about an access agrees: it leads to data or it leads to nothing, in every way, and
no question ends with an error of another sort. -/
theorem finds_or_misses {ctx : Context σ} (h : ctx.Built) (p : Text) (s : σ) :
    ((∃ t k v, ctx.Finds p s t k v) ∧ ¬ ctx.Misses p s) ∨
      (ctx.Misses p s ∧ ¬ ∃ t k v, ctx.Finds p s t k v) := by
  have hexclusive : (∃ t k v, ctx.Finds p s t k v) → ¬ ctx.Misses p s := by
    rintro ⟨t, k, v, hf⟩ hm
    have hpresent := hf.present
    rw [hm.present] at hpresent
    cases hpresent
  obtain ⟨r, hlookup, hr⟩ := h.lookup_cases p
  have htext := Element.text_access hlookup s s
  have hvalue := Element.value_access hlookup
  have hpresent := Element.isPresent_access hlookup s s
  have hkind := fun k => Element.isOfKind_of_value hvalue k s s
  rcases hr with ⟨t, k, rfl, v, hv, rfl⟩ | ⟨q, rfl⟩
  · have hfinds : ctx.Finds p s t v.kind v := by
      simp only [Except.bind, hv] at hkind
      refine ⟨htext, (hvalue s s).trans ?_, ⟨hlookup s s, hv⟩, hpresent, ?_, fun k hk => ?_⟩
      · exact hv
      · cases v <;> simp [Value.kind, Kind.ofData]
      · rw [Condition.holds, hkind k]
        exact congrArg Except.ok (decide_eq_decide.mpr eq_comm)
    exact .inl ⟨⟨t, _, v, hfinds⟩, hexclusive ⟨t, _, v, hfinds⟩⟩
  · have hmisses : ctx.Misses p s :=
      ⟨⟨q, htext⟩, ⟨q, hvalue s s⟩, hpresent, fun k _ => hkind k⟩
    exact .inr ⟨hmisses, fun hf => hexclusive hf hmisses⟩

/-- In a round of a loop over an array with null and a float in it, the item leads to data. -/
theorem finds_item :
    let record := Utf8.encode "\x7b\"xs\": [null, 2.5e-7]\x7d".toList
    let ctx := (ofRecord record none : Context Unit).enter
      ⟨"x".toList, some "i".toList, Utf8.encode "2.5e-7".toList, .number, .position 2⟩
    ctx.Built ∧ ∃ t k v, ctx.Finds "x".toList () t k v := by
  intro record ctx
  let header : Header := ⟨"x".toList, some "i".toList, "xs".toList⟩
  have hl : ((ofRecord record none : Context Unit).lookup "xs".toList ()).result =
      .ok ("[null,2.5e-7]".toList, .array) := by decide +kernel
  have hr : header.rounds "[null,2.5e-7]".toList .array =
      .ok [⟨"x".toList, some "i".toList, Utf8.encode "null".toList, .missing, .position 1⟩,
        ⟨"x".toList, some "i".toList, Utf8.encode "2.5e-7".toList, .number, .position 2⟩] := by
    decide +kernel
  have hbuilt : ctx.Built :=
    .round (h := header) (.record record none) hl hr (List.mem_cons_of_mem _ List.mem_cons_self)
  have htext : ((Element.access "x".toList).text ctx ()).result = .ok "2.5e-7".toList := by
    decide +kernel
  rcases finds_or_misses hbuilt "x".toList () with ⟨hf, -⟩ | ⟨hm, -⟩
  · exact ⟨hbuilt, hf⟩
  · obtain ⟨q, hq⟩ := hm.text
    rw [htext] at hq
    cases hq

end Context
end MailMerge
