import MailMerge.Proofs.ConditionGrammar
import MailMerge.Proofs.Juxtaposition
import MailMerge.Proofs.TokenJoining

/-!
# Connectives and nested blocks

An `if` block whose condition joins two conditions in parentheses, or negates one, renders like `if`
blocks without the connective inside one another. The parser reads a text in parentheses as the
condition that it is by itself, whatever that condition begins with; and the evaluation of a
connective looks at its second condition exactly where the nested blocks do.
-/

namespace MailMerge

open Token (Cuts)

/-! ### Conditions in parentheses -/

namespace Condition

/-- A text that an `if` block reads as the condition. -/
def WrittenAs (c : Condition) (text : Text) : Prop :=
  marker ∉ text ∧ ∃ ts, Token.lex text 1 = .ok ts ∧ parse ts = .ok (c, [])

/-- A condition behind a connective, both conditions in parentheses. -/
def joined (a word b : Text) : Text :=
  "(".toList ++ (a ++ (") ".toList ++ (word ++ (" (".toList ++ (b ++ ")".toList)))))

namespace WrittenAs

variable {a b c : Condition} {A B : Text}

/-- A text whose tokens are a phrase for the condition. -/
theorem of_phrase {text : Text} {ts : List Located} (hm : marker ∉ text)
    (ht : Cuts text (ts.map Located.token)) (hp : Phrase ts c) : c.WrittenAs text := by
  obtain ⟨us, hu, hs⟩ := ht
  exact ⟨hm, us, hu, parse_relocate ((parse_iff_phrase ts c).1.mpr hp) hs.symm⟩

theorem phrase (h : a.WrittenAs A) :
    ∃ ts : List Located, Cuts A (ts.map Located.token) ∧ Phrase ts a := by
  obtain ⟨-, ts, hl, hp⟩ := h
  exact ⟨ts, ⟨ts, hl, rfl⟩, (parse_iff_phrase ts a).1.mp hp⟩

/-- The tokens of a text in parentheses. -/
theorem cuts_group {ts us : List Token} {r : Text} (h : Cuts A ts) (hr : Cuts r us) :
    Cuts ('(' :: (A ++ ')' :: r)) (.symbol .openParen :: (ts ++ .symbol .closeParen :: us)) :=
  .parenthesis (.inl ⟨rfl, rfl⟩) (h.append rfl (.parenthesis (.inr ⟨rfl, rfl⟩) hr))

/-- A text with two conditions in parentheses and a word between them is read as what the word makes
of the two, if it does so with two primary conditions. -/
theorem joined {word : Text} {k : Keyword} (ha : a.WrittenAs A) (hb : b.WrittenAs B)
    (hm : marker ∉ word) (hk : Cuts word [.keyword k])
    (hc : ∀ {u v : List Located} {t : Located}, Primary u a → t.token = .keyword k → Primary v b →
      Phrase (u ++ t :: v) c) : c.WrittenAs (Condition.joined A word B) := by
  obtain ⟨ts, hts, hpa⟩ := ha.phrase
  obtain ⟨us, hus, hpb⟩ := hb.phrase
  let mark (k : Token) : Located := ⟨k, 1⟩
  let group (ts : List Located) : List Located :=
    mark (.symbol .openParen) :: (ts ++ [mark (.symbol .closeParen)])
  have hphrase : Phrase (group ts ++ mark (.keyword k) :: group us) c :=
    hc (.group rfl hpa rfl) rfl (.group rfl hpb rfl)
  have hcuts : Cuts (Condition.joined A word B) _ :=
    cuts_group hts (.space (hk.append rfl (.space (cuts_group hus .nil))))
  refine of_phrase ?_ ?_ hphrase
  · simpa [Condition.joined, marker] using And.intro ha.1 (And.intro hm hb.1)
  · simpa [group, mark] using hcuts

theorem both (ha : a.WrittenAs A) (hb : b.WrittenAs B) :
    (Condition.both a b).WrittenAs (Condition.joined A "and".toList B) :=
  ha.joined hb (by decide) ⟨_, rfl, rfl⟩ fun hu ht hv =>
    .one (.more (.one (.one hu)) (by rw [ht]; rfl) (.one hv))

theorem either (ha : a.WrittenAs A) (hb : b.WrittenAs B) :
    (Condition.either a b).WrittenAs (Condition.joined A "or".toList B) :=
  ha.joined hb (by decide) ⟨_, rfl, rfl⟩ fun hu ht hv =>
    .more (.one (.one (.one hu))) (by rw [ht]; rfl) (.one (.one hv))

theorem negated (ha : a.WrittenAs A) :
    (Condition.negated a).WrittenAs ("not (".toList ++ (A ++ ")".toList)) := by
  obtain ⟨ts, hts, hpa⟩ := ha.phrase
  let mark (k : Token) : Located := ⟨k, 1⟩
  have hcuts : Cuts ("not".toList ++ ' ' :: '(' :: (A ++ [')'])) _ :=
    Cuts.append (⟨_, rfl, rfl⟩ : Cuts "not".toList [.keyword .not_]) rfl
      (.space (cuts_group hts .nil))
  have hphrase : Phrase (mark (.keyword .not_) :: mark (.symbol .openParen) ::
      (ts ++ [mark (.symbol .closeParen)])) (.negated a) :=
    .one (.one (.not (.inl rfl) (.one (.group rfl hpa rfl))))
  refine of_phrase ?_ ?_ hphrase
  · simpa [marker] using ha.1
  · simpa [mark] using hcuts

/-- An `if` block with the text has the condition. -/
theorem read_if (ha : a.WrittenAs A) :
    Piece.read (.between 1 ("if ".toList ++ A)) = .ok (.statement (.if_ a)) := by
  obtain ⟨-, ts, hl, hp⟩ := ha
  have hcuts : Cuts ("if".toList ++ ' ' :: A) (.keyword .if_ :: ts.map Located.token) :=
    Cuts.append (⟨_, rfl, rfl⟩ : Cuts "if".toList [.keyword .if_]) rfl (.space ⟨ts, hl, rfl⟩)
  obtain ⟨us, hu, hs⟩ := hcuts
  obtain ⟨⟨k, line⟩, vs, rfl, hk, hvs⟩ := List.map_eq_cons_iff.mp hs
  cases hk
  have hbody : Statement.body (⟨.keyword .if_, line⟩ :: vs) = .ok (.if_ a, []) := by
    simp only [Statement.body, parse_relocate hp hvs.symm, bind, Except.bind]
  have hlex : Token.lex ("if ".toList ++ A) 1 = .ok (⟨.keyword .if_, line⟩ :: vs) := hu
  exact Piece.read_statement_iff.mpr (Statement.parse_eq_ok_iff.mpr ⟨_, hlex, hbody⟩)

end WrittenAs
end Condition

/-! ### Blocks with two branches -/

namespace Template

/-- The source of an `if` block with both branches. -/
def ifElse (c x y : Text) : Text :=
  "$if ".toList ++ (c ++ ("$".toList ++ (x ++ ("$else$".toList ++ (y ++ "$end$".toList)))))

/-- An `if` block between balanced bodies is a template. -/
theorem parse_ifElse {c : Condition} {C X Y : Text} {x y : Template} (hc : c.WrittenAs C)
    (hx : parse X = .ok x) (hy : parse Y = .ok y) :
    parse (ifElse C X Y) = .ok (ofOutline (.branch c x.outline y.outline .done)) := by
  obtain ⟨xs, ox, hxs, hbx, rfl⟩ := parse_eq_ok_iff.mp hx
  obtain ⟨ys, oy, hys, hby, rfl⟩ := parse_eq_ok_iff.mp hy
  have hm : marker ∉ "if ".toList ++ C := by simpa [marker] using hc.1
  have hpieces : (ifElse C X Y).pieces marker =
      [] :: ("if ".toList ++ C) :: (X.pieces marker ++ "else".toList ::
        (Y.pieces marker ++ ["end".toList, []])) := by
    have hsource : ifElse C X Y = [] ++ marker :: (("if ".toList ++ C) ++ marker :: (X ++
        marker :: ("else".toList ++ marker :: (Y ++ marker :: ("end".toList ++ marker :: []))))) :=
      rfl
    rw [hsource]
    simp only [Text.pieces_mark, Text.pieces_of_not_mem hm]
    rfl
  have hend : Piece.Spells [[]] [] := .mk [] .nil
  have hspells : Piece.Spells ((ifElse C X Y).pieces marker) ([] ++ .statement (.if_ c) ::
      (xs ++ .statement .else_ :: (ys ++ .statement .end_ :: []))) := by
    rw [hpieces]
    exact hend.around hc.read_if (hxs.around rfl (hys.around rfl hend))
  rw [outline_ofOutline, outline_ofOutline]
  exact parse_eq_ok_iff.mpr ⟨_, _, hspells, .ifElse c hbx hby .nil, rfl⟩

end Template

/-! ### Rendering -/

namespace Outline

open Eval (quiet)

variable {σ : Type} (a b : Condition) (x y : Outline) (ctx : Context σ)

theorem quiet_branch :
    quiet ((Outline.branch a x y .done).render ctx) =
      (do if ← quiet (a.holds ctx) then quiet (x.render ctx) else quiet (y.render ctx)) := by
  have hnote : quiet (Eval.note .branch : Eval σ Unit) = pure () := rfl
  simp only [render, Eval.quiet_bind, hnote, pure_bind, List.append_nil, bind_pure,
    apply_ite quiet]

theorem quiet_both :
    quiet ((Outline.branch (.both a b) x y .done).render ctx) =
      quiet ((Outline.branch a (.branch b x y .done) y .done).render ctx) := by
  simp only [quiet_branch, Condition.holds, Eval.quiet_bind, apply_ite quiet, Eval.quiet_pure,
    bind_assoc]
  refine bind_congr fun v => ?_
  cases v with
  | true => rfl
  | false => rfl

theorem quiet_either :
    quiet ((Outline.branch (.either a b) x y .done).render ctx) =
      quiet ((Outline.branch a x (.branch b x y .done) .done).render ctx) := by
  simp only [quiet_branch, Condition.holds, Eval.quiet_bind, apply_ite quiet, Eval.quiet_pure,
    bind_assoc]
  refine bind_congr fun v => ?_
  cases v with
  | true => rfl
  | false => rfl

theorem quiet_negated :
    quiet ((Outline.branch (.negated a) x y .done).render ctx) =
      quiet ((Outline.branch a y x .done).render ctx) := by
  simp only [quiet_branch, Condition.holds, Eval.quiet_bind, Eval.quiet_pure, bind_assoc]
  refine bind_congr fun v => ?_
  cases v with
  | true => rfl
  | false => rfl

end Outline

namespace Template

/-- Both sources are templates, and in every context they give the same text or the same error, ask
the record getter for the same patterns and make the same calls, all in the same order, and leave
the user functions in the same state. -/
def SameRendering (s₁ s₂ : Text) : Prop :=
  ∃ t₁ t₂, parse s₁ = .ok t₁ ∧ parse s₂ = .ok t₂ ∧ ∀ {σ : Type} (ctx : Context σ) (s : σ),
    (t₁.render ctx s).result = (t₂.render ctx s).result ∧
      Event.outward (t₁.render ctx s).events = Event.outward (t₂.render ctx s).events ∧
        (t₁.render ctx s).state = (t₂.render ctx s).state

theorem SameRendering.of_quiet {s₁ s₂ : Text} {o₁ o₂ : Outline}
    (h₁ : parse s₁ = .ok (ofOutline o₁)) (h₂ : parse s₂ = .ok (ofOutline o₂))
    (h : ∀ {σ : Type} (ctx : Context σ), (o₁.render ctx).quiet = (o₂.render ctx).quiet) :
    SameRendering s₁ s₂ := by
  refine ⟨_, _, h₁, h₂, fun ctx s => ?_⟩
  simp only [render, outline_ofOutline]
  have hs := congrFun (h ctx) s
  injection hs with hresult hevents hstate
  exact ⟨hresult, hevents, hstate⟩

/-- An `if` block on two conditions with `and` between them renders like an `if` block on the second
one inside of an `if` block on the first, with the other branch in both of them; one with `or` like
an `if` block on the second in the other branch of one on the first; and one with `not` like the
block with its branches exchanged. -/
theorem connectives_nest {A B X Y : Text} {a b : Condition} {x y : Template}
    (ha : a.WrittenAs A) (hb : b.WrittenAs B) (hx : parse X = .ok x) (hy : parse Y = .ok y) :
    SameRendering (ifElse (Condition.joined A "and".toList B) X Y)
      (ifElse A (ifElse B X Y) Y) ∧
    SameRendering (ifElse (Condition.joined A "or".toList B) X Y)
      (ifElse A X (ifElse B X Y)) ∧
    SameRendering (ifElse ("not (".toList ++ (A ++ ")".toList)) X Y) (ifElse A Y X) := by
  have hinner := parse_ifElse hb hx hy
  refine ⟨?_, ?_, ?_⟩
  · have hnested := parse_ifElse ha hinner hy
    rw [outline_ofOutline] at hnested
    exact .of_quiet (parse_ifElse (ha.both hb) hx hy) hnested fun ctx =>
      Outline.quiet_both a b x.outline y.outline ctx
  · have hnested := parse_ifElse ha hx hinner
    rw [outline_ofOutline] at hnested
    exact .of_quiet (parse_ifElse (ha.either hb) hx hy) hnested fun ctx =>
      Outline.quiet_either a b x.outline y.outline ctx
  · exact .of_quiet (parse_ifElse ha.negated hx hy) (parse_ifElse ha hy hx) fun ctx =>
      Outline.quiet_negated a x.outline y.outline ctx

/-- The second condition begins with an element in parentheses and has a connective of its own. -/
theorem connectives_nest_grouped :
    let A := "not exists f(x)".toList
    let B := "(y + 1) * 2 > 3 or z is array".toList
    let X := "a$f(x)$".toList
    let Y := "$for i in z$$i$$end$".toList
    SameRendering (ifElse "(not exists f(x)) and ((y + 1) * 2 > 3 or z is array)".toList X Y)
        (ifElse A (ifElse B X Y) Y) ∧
      SameRendering (ifElse "(not exists f(x)) or ((y + 1) * 2 > 3 or z is array)".toList X Y)
        (ifElse A X (ifElse B X Y)) ∧
      SameRendering (ifElse "not (not exists f(x))".toList X Y) (ifElse A Y X) := by
  intro A B X Y
  let call : Element := .call "f".toList [.access "x".toList]
  let a : Condition := .negated (.present call)
  have ha : a.WrittenAs A := ⟨by decide, _, rfl, rfl⟩
  obtain ⟨b, hb⟩ : ∃ b : Condition, b.WrittenAs B := ⟨_, by decide, _, rfl, rfl⟩
  have hx : parse X = .ok (ofOutline (.text "a".toList (.emit call .done))) := rfl
  have hy : parse Y = .ok (ofOutline
      (.loop ⟨"i".toList, none, "z".toList⟩ (.emit (.access "i".toList) .done) .done)) := rfl
  exact connectives_nest ha hb hx hy

end Template
end MailMerge
