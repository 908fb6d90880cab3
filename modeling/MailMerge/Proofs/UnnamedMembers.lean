import MailMerge.Proofs.PlainRendering
import MailMerge.Proofs.RecordLookup
import MailMerge.Proofs.Substitution

/-!
# Members that a template does not name

A template asks a record only for what stands under the first segments of its patterns. Two records
that differ in another member are the same to it: every lookup that reaches the record finds the
same, so that the loops run over the same elements, in whose rounds the contexts are still the same
to the template.
-/

namespace MailMerge

/-! ### Lookups past a member -/

/-- Another member is found among all but one. -/
theorem Json.member?_filter_ne {name k : Text} (h : name ≠ k) (ms : List (Text × Json)) :
    member? name (ms.filter (·.1 ≠ k)) = member? name ms := by
  induction ms with
  | nil => rfl
  | cons m ms ih =>
    obtain ⟨n, v⟩ := m
    by_cases hn : n = k
    · rw [List.filter_cons_of_neg (by simp [hn]), ih, member?, if_neg (hn ▸ h.symm)]
    · rw [List.filter_cons_of_pos (by simp [hn]), member?, member?, ih]

namespace Record

/-- What a segment selects in an object does not depend on a member of another name. -/
theorem select_filter_ne {segment k : Text} (h : segment ≠ k) (ms : List (Text × Json)) :
    select (.object (ms.filter (·.1 ≠ k))) segment = select (.object ms) segment := by
  unfold select
  cases Pattern.indexOf? segment with
  | none => exact Json.member?_filter_ne h ms
  | some i => rfl

variable {data data' : Bytes} {ms ms' : List (Text × Json)} {k p : Text}

/-- A path that begins with another name finds the same in two objects which are the same but for
one member. -/
theorem get_unnamed (hd : Json.read data = .ok (.object ms))
    (hd' : Json.read data' = .ok (.object ms')) (hm : ms.filter (·.1 ≠ k) = ms'.filter (·.1 ≠ k))
    (hp : Pattern.IsPath p) (hk : (Pattern.segments p).head? ≠ some k) :
    get data p = get data' p := by
  obtain ⟨name, steps, -, -, -, hs⟩ := hp.split
  have hname : name ≠ k := by
    rintro rfl
    exact hk (by rw [hs, List.head?_cons])
  have hselect : select (.object ms) name = select (.object ms') name := by
    rw [← select_filter_ne hname, hm, select_filter_ne hname]
  have hresolve : resolve (.object ms) p = resolve (.object ms') p := by
    rw [resolve, resolve, hs, List.foldlM_cons, List.foldlM_cons, hselect]
  rw [get_of_read hd, get_of_read hd', hresolve]

end Record

/-! ### Contexts that are the same to some patterns -/

variable {σ : Type}

/-- Contexts with the same scopes and the same user functions, whose getter finds the same in both
records under the patterns of a class. -/
structure Context.SameUnder (P : Text → Prop) (c d : Context σ) : Prop where
  host : c.host = d.host
  scopes : c.scopes = d.scopes
  root : c.root = d.root
  data : ∀ p, P p → c.root c.data p = d.root d.data p

namespace Context.SameUnder

variable {P : Text → Prop} {c d : Context σ} {p : Text}

/-- A pattern of the class is looked up with the same result: scopes answer it without the record
or pass it on as it is. -/
theorem lookup (h : SameUnder P c d) (hp : P p) : c.lookup p = d.lookup p := by
  unfold Context.lookup
  rw [h.scopes]
  rcases Scope.route_data d.scopes p with ⟨r, hr⟩ | hr
  · rw [hr, hr, h.root]
  · rw [hr, hr]
    dsimp only
    rw [h.data p hp]

/-- The rounds of loops keep contexts the same. -/
theorem simulation (P : Text → Prop) :
    Simulation Eq id P (fun _ => True) (SameUnder P : Context σ → Context σ → Prop) where
  host h := h.host
  lookup h hp := by
    rw [h.lookup hp]
    exact .refl (fun _ => rfl) _
  enter {_ _ s} h _ _ := ⟨h.host, congrArg (s :: ·) h.scopes, h.root, h.data⟩

end Context.SameUnder

/-! ### Templates -/

/-- Computations that agree up to equality give the same, with the same calls. -/
theorem Eval.Agree.same {α : Type} {x y : Eval σ α} (h : Agree Eq Eq x y) (s : σ) :
    (x s).result = (y s).result ∧ Event.calls (x s).events = Event.calls (y s).events ∧
      (x s).state = (y s).state := by
  obtain ⟨hr, hc⟩ := h s
  refine ⟨?_, hc⟩
  generalize (x s).result = r at hr ⊢
  generalize (y s).result = q at hr ⊢
  cases hr with
  | ok h => rw [h]
  | error h => rw [h]

namespace Template

/-- A member that is the first segment of no pattern has no influence: two records that are the same
without it give the same text or the same error, with the same calls of user functions, which are
left in the same state. -/
theorem render_unnamed_member {source : Text} {t : Template} (h : parse source = .ok t) {k : Text}
    (hk : ∀ p ∈ t.outline.patterns, (Pattern.segments p).head? ≠ some k) {data data' : Bytes}
    {ms ms' : List (Text × Json)} (hd : Json.read data = .ok (.object ms))
    (hd' : Json.read data' = .ok (.object ms')) (hm : ms.filter (·.1 ≠ k) = ms'.filter (·.1 ≠ k))
    (host : Option (Host σ)) (s : σ) :
    let first := t.render (.ofRecord data host) s
    let second := t.render (.ofRecord data' host) s
    first.result = second.result ∧ Event.calls first.events = Event.calls second.events ∧
      first.state = second.state := by
  let P : Text → Prop := fun p => Pattern.IsPath p ∧ (Pattern.segments p).head? ≠ some k
  have hsame : Context.SameUnder P (.ofRecord data host) (.ofRecord data' host) :=
    ⟨rfl, rfl, rfl, fun p hp => Record.get_unnamed hd hd' hm hp.1 hp.2⟩
  have hpatterns : ∀ p ∈ t.outline.patterns, P p := fun p hp =>
    ⟨((wellFormed_of_parse h).patterns p hp).isPath, hk p hp⟩
  have hagree := Outline.render_agree .same (Context.SameUnder.simulation P) hpatterns
    (fun _ _ => trivial) hsame
  rw [Outline.mapPatterns_id] at hagree
  exact hagree.same s

/-- The member `x` of a record has no influence on a loop over another one, in whose elements a
member of that name is looked up, once with success. -/
theorem render_without_x :
    let l : Text × Json := ("l".toList, .array [.object [("x".toList, .integer 2)], .integer 3])
    let data := Utf8.encode (Json.write (.object [("x".toList, .null), l]))
    let data' := Utf8.encode (Json.write (.object [l, ("x".toList, .bool true)]))
    let host : Host Nat := ⟨fun f as n => (.ok (.string (f ++ as.flatten)), n + 1)⟩
    ∃ t, parse "$for y in l$$f(y->x)$$end$".toList = .ok t ∧
      let first := t.render (.ofRecord data (some host)) 5
      let second := t.render (.ofRecord data' (some host)) 5
      first.result = .error (.invalidAccess "f(y->x)".toList) ∧ first.result = second.result ∧
      Event.calls second.events = [("f".toList, ["2".toList])] ∧ second.state = 6 := by
  intro l data data' host
  let o : Outline := .loop ⟨"y".toList, none, "l".toList⟩
    (.emit (.call "f".toList [.access "y->x".toList]) .done) .done
  have h : parse "$for y in l$$f(y->x)$$end$".toList = .ok (ofOutline o) := rfl
  have hd : Json.read data = .ok (.object [("x".toList, .null), l]) := by decide +kernel
  have hd' : Json.read data' = .ok (.object [l, ("x".toList, .bool true)]) := by decide +kernel
  have hk : ∀ p ∈ (ofOutline o).outline.patterns, (Pattern.segments p).head? ≠ some "x".toList := by
    decide
  have hfirst : ((ofOutline o).render (.ofRecord data (some host)) 5).result =
      .error (.invalidAccess "f(y->x)".toList) := by decide +kernel
  have hcalls : Event.calls ((ofOutline o).render (.ofRecord data (some host)) 5).events =
      [("f".toList, ["2".toList])] := by decide +kernel
  have hstate : ((ofOutline o).render (.ofRecord data (some host)) 5).state = 6 := by
    decide +kernel
  obtain ⟨hsame, hc, hs⟩ := render_unnamed_member h hk hd hd' rfl (some host) 5
  exact ⟨_, h, hfirst, hsame, hc.symm.trans hcalls, hs.symm.trans hstate⟩

end Template
end MailMerge
