import MailMerge.Proofs.Juxtaposition
import MailMerge.Proofs.WrittenElements

/-!
# Strings written as constants

Every string without a marker can be written as a constant: between quotes, with a backslash before
each quote and each backslash, and with `\n` for a line feed. The splitter leaves such a constant in
one piece, the lexer takes it for one token, and what the constant resolves to is the string. So a
block with the constant inserts the string, and a call with the constant among its arguments hands
the string over.
-/

namespace MailMerge

open Token (Cuts isGap)

/-! ### Between quotes -/

namespace Value.Escapes

variable {s body : Text}

theorem isQuotedBody (h : Escapes s body) : Token.IsQuotedBody body := by
  induction h with
  | nil => exact .nil
  | plain hc _ ih => exact .plain hc ih
  | quote _ ih | backslash _ ih | lineFeed _ ih | tab _ ih => exact .escape (by decide) ih

/-- No marker is written for a string without one. -/
theorem marker_not_mem (h : Escapes s body) (hs : marker ∉ s) : marker ∉ body := by
  induction h with
  | nil => exact List.not_mem_nil
  | quote _ ih | backslash _ ih | lineFeed _ ih | tab _ ih =>
    simpa [marker] using ih fun hm => hs (List.mem_cons_of_mem _ hm)
  | plain _ _ ih =>
    simp only [List.mem_cons, not_or] at hs ⊢
    exact ⟨hs.1, ih hs.2⟩

end Value.Escapes

/-! ### Elements as texts -/

namespace Element

/-- A text without markers that the parser reads as the element. -/
def WrittenAs (e : Element) (text : Text) : Prop :=
  marker ∉ text ∧ ∃ ts, Token.lex text 1 = .ok ts ∧ parse ts = .ok (e, [])

/-- A call, with commas between the texts of its arguments. -/
def callText (f : Text) (as : List Text) : Text := f ++ '(' :: (Text.join [','] as ++ [')'])

namespace WrittenAs

variable {e : Element} {text : Text}

/-- A text whose tokens are a phrase for the element. -/
theorem of_phrase {ts : List Located} (hm : marker ∉ text) (ht : Cuts text (ts.map Located.token))
    (hp : Phrase ts e) : e.WrittenAs text := by
  obtain ⟨us, hu, hs⟩ := ht
  exact ⟨hm, us, hu, parse_relocate (parse_eq_ok_iff.mpr hp) hs.symm⟩

theorem phrase (h : e.WrittenAs text) :
    ∃ ts : List Located, Cuts text (ts.map Located.token) ∧ Phrase ts e := by
  obtain ⟨-, ts, hl, hp⟩ := h
  exact ⟨ts, ⟨ts, hl, rfl⟩, parse_eq_ok_iff.mp hp⟩

theorem padded (h : e.WrittenAs text) {before after : Text} (hb : before.all isGap = true)
    (ha : after.all isGap = true) : e.WrittenAs (before ++ (text ++ after)) := by
  have hgap : ∀ {r : Text}, r.all isGap = true → marker ∉ r := fun hr hmem =>
    absurd (List.all_eq_true.mp hr _ hmem) (by decide)
  obtain ⟨ts, ht, hp⟩ := h.phrase
  refine of_phrase ?_ (ht.padded hb ha) hp
  simp only [List.mem_append, not_or]
  exact ⟨hgap hb, h.1, hgap ha⟩

/-- A string between quotes. -/
theorem quoted {s body : Text} (hs : marker ∉ s) (hb : Value.Escapes s body) :
    (Element.constant s (.string s)).WrittenAs ('"' :: (body ++ ['"'])) := by
  have hm : marker ∉ '"' :: (body ++ ['"']) := by simpa [marker] using hb.marker_not_mem hs
  have hphrase : Phrase [⟨.quoted ('"' :: (body ++ ['"'])), 1⟩] (.constant s (.string s)) :=
    .one (.one (.quoted hb.ofConstant?_eq))
  have htoken : (Token.quoted ('"' :: (body ++ ['"']))).WellSpelled :=
    ⟨Token.IsQuoted.mk hb.isQuotedBody, fun _ h => nomatch h⟩
  refine of_phrase hm ?_ hphrase
  exact Cuts.of_wellSpelled htoken

/-! ### Calls -/

theorem marker_not_mem_join {ts : List Text} (h : ∀ t ∈ ts, marker ∉ t) :
    marker ∉ Text.join [','] ts := by
  induction ts with
  | nil => exact List.not_mem_nil
  | cons t ts ih =>
    obtain ⟨ht, hts⟩ := List.forall_mem_cons.mp h
    cases ts with
    | nil => simpa [Text.join] using ht
    | cons u r =>
      rw [Text.join_cons]
      simpa [marker] using And.intro ht (ih hts)

/-- The arguments of a call, up to its closing parenthesis. -/
theorem arguments {as : List (Text × Element)} (h : ∀ a ∈ as, a.2.WrittenAs a.1) (hne : as ≠ []) :
    ∃ us : List Located, Listed Phrase us (as.map Prod.snd) ∧
      Cuts (Text.join [','] (as.map Prod.fst) ++ [')'])
        (us.map Located.token ++ [.symbol .closeParen]) := by
  induction as with
  | nil => exact absurd rfl hne
  | cons a as ih =>
    obtain ⟨ha, has⟩ := List.forall_mem_cons.mp h
    obtain ⟨us, hus, hp⟩ := ha.phrase
    cases as with
    | nil =>
      refine ⟨us, .one hp, ?_⟩
      simpa [Text.join] using hus.append rfl (.parenthesis (.inr ⟨rfl, rfl⟩) .nil)
    | cons b as =>
      obtain ⟨vs, hl, hvs⟩ := ih has (List.cons_ne_nil b as)
      refine ⟨us ++ ⟨.symbol .comma, 1⟩ :: vs, .more hp rfl hl, ?_⟩
      have hcomma := hus.append rfl (hvs.symbol (c := ',') (m := .comma) fun _ => rfl)
      rw [List.map_cons, List.map_cons, Text.join_cons]
      simpa using hcomma

theorem call {f : Text} {as : List (Text × Element)} (hf : (Token.path f).WellSpelled)
    (hn : Token.isPlainName f = true) (h : ∀ a ∈ as, a.2.WrittenAs a.1) (hne : as ≠ []) :
    (Element.call f (as.map Prod.snd)).WrittenAs (callText f (as.map Prod.fst)) := by
  obtain ⟨us, hl, hus⟩ := arguments h hne
  have hphrase : Phrase (⟨.path f, 1⟩ :: ⟨.symbol .openParen, 1⟩ ::
      (us ++ [⟨.symbol .closeParen, 1⟩])) (.call f (as.map Prod.snd)) :=
    .one (.one (.call hn rfl hl rfl))
  have hcuts : Cuts (f ++ '(' :: (Text.join [','] (as.map Prod.fst) ++ [')'])) _ :=
    (Cuts.of_wellSpelled hf).append rfl (.parenthesis (.inl ⟨rfl, rfl⟩) hus)
  have hname : marker ∉ f := by
    intro hmem
    simp only [Token.isPlainName, Bool.and_eq_true] at hn
    exact absurd (List.all_eq_true.mp hn.2 _ hmem) (by decide)
  have harguments : marker ∉ Text.join [','] (as.map Prod.fst) :=
    marker_not_mem_join (List.forall_mem_map.mpr fun a ha => (h a ha).1)
  refine of_phrase ?_ ?_ hphrase
  · simpa [callText, marker] using And.intro hname harguments
  · simpa [callText] using hcuts

/-! ### Blocks -/

/-- A block with the text emits the element. -/
theorem statement (h : e.WrittenAs text) (line : Nat) :
    Statement.parse text line = .ok (.emit e) := by
  obtain ⟨-, ts, hl, hp⟩ := h
  exact Statement.parse_relocate (Statement.parse_eq_ok_iff.mpr ⟨ts, hl, Statement.body_emit hp⟩)
    line

/-- The text between two markers is a template. -/
theorem template (h : e.WrittenAs text) :
    Template.parse (marker :: (text ++ [marker])) = .ok ⟨[⟨.emit e, none⟩], some 0⟩ := by
  have hread : Piece.read (.between 1 text) = .ok (.statement (.emit e)) :=
    Piece.read_statement_iff.mpr (h.statement 1)
  have hpieces : Text.pieces marker ([] ++ marker :: (text ++ marker :: [])) = [[], text, []] := by
    rw [Text.pieces_mark, Text.pieces_mark, Text.pieces_of_not_mem h.1]
    rfl
  refine Template.parse_eq_ok_iff.mpr ⟨[.statement (.emit e)], .emit e .done, ?_, .emit e .nil, rfl⟩
  have hspells : Piece.Spells [[], text, []] [.statement (.emit e)] :=
    .mk [] (.cons [] hread .nil)
  rwa [← hpieces] at hspells

end WrittenAs
end Element

/-! ### Evaluation -/

/-- A call of a user function, which is noted. -/
def Host.run {σ : Type} (host : Host σ) (f : Text) (as : List Text) : Eval σ Value := fun st =>
  ⟨(host.call f as st).1, [.called f as], (host.call f as st).2⟩

namespace Element

variable {σ : Type} (ctx : Context σ)

theorem texts_append (as bs : List Element) :
    texts ctx (as ++ bs) =
      (do let xs ← texts ctx as; let ys ← texts ctx bs; pure (xs ++ ys)) := by
  induction as with
  | nil => simp [texts]
  | cons a as ih => simp only [List.cons_append, texts, ih, bind_assoc, pure_bind]

/-- What user functions are given for a constant among the arguments of a call. -/
theorem value_call_constant {host : Host σ} (hh : ctx.host = some host) (f t : Text) (v : Value)
    (as bs : List Element) :
    (Element.call f (as ++ .constant t v :: bs)).value ctx = (do
      let xs ← texts ctx as
      let ys ← texts ctx bs
      host.run f (xs ++ t :: ys)) := by
  rw [value, Context.call, hh]
  simp only [texts_append, texts, text, bind_assoc, pure_bind]
  rfl

end Element

/-- A constant renders as its text. -/
theorem Outline.render_constant {σ : Type} (ctx : Context σ) (t : Text) (v : Value) (st : σ) :
    (Outline.emit (.constant t v) .done).render ctx st =
      ⟨.ok t, [.emit (Element.constant t v).display], st⟩ := by
  have hrender : (Outline.emit (.constant t v) .done).render ctx st =
      ⟨.ok (t ++ []), [.emit (Element.constant t v).display], st⟩ := rfl
  rw [hrender, List.append_nil]

namespace Template

/-- Every string without a marker can be written as a constant, and however it is written: a block
with the constant emits the string; as a template it is a single node, which inserts the string in
every context, asks for nothing and calls nothing; and a call with the constant among its arguments,
perhaps with blanks around it, is read as such, and hands the string over between the texts of the
other arguments. -/
theorem written_string {s : Text} (hs : marker ∉ s) :
    (∃ body, Value.Escapes s body) ∧ ∀ body, Value.Escapes s body →
      let q : Text := '"' :: (body ++ ['"'])
      let c : Element := .constant s (.string s)
      let t : Template := ⟨[⟨.emit c, none⟩], some 0⟩
      (∀ line, Statement.parse q line = .ok (.emit c)) ∧
      (parse (marker :: (q ++ [marker])) = .ok t ∧
        ∀ {σ : Type} (ctx : Context σ) (st : σ),
          t.render ctx st = ⟨.ok s, [.emit c.display], st⟩) ∧
      ∀ (f : Text) (as bs : List (Text × Element)) (before after : Text),
        (Token.path f).WellSpelled → Token.isPlainName f = true →
        (∀ a ∈ as ++ bs, a.2.WrittenAs a.1) →
        before.all isGap = true → after.all isGap = true →
        let call : Element := .call f (as.map Prod.snd ++ c :: bs.map Prod.snd)
        let source : Text := Element.callText f
          (as.map Prod.fst ++ (before ++ (q ++ after)) :: bs.map Prod.fst)
        call.WrittenAs source ∧
        parse (marker :: (source ++ [marker])) = .ok ⟨[⟨.emit call, none⟩], some 0⟩ ∧
        ∀ {σ : Type} (ctx : Context σ) (host : Host σ), ctx.host = some host →
          call.value ctx = (do
            let xs ← Element.texts ctx (as.map Prod.snd)
            let ys ← Element.texts ctx (bs.map Prod.snd)
            host.run f (xs ++ s :: ys)) := by
  refine ⟨⟨_, Value.escapes_escape s⟩, ?_⟩
  intro body hb q c t
  have hq : c.WrittenAs q := .quoted hs hb
  refine ⟨hq.statement, ⟨hq.template, ?_⟩, ?_⟩
  · intro σ ctx st
    have houtline : t.outline = .emit c .done := outline_ofOutline (.emit c .done)
    rw [render, houtline, Outline.render_constant]
  · intro f as bs before after hf hn hargs hbefore hafter call source
    have hcall : call.WrittenAs source := by
      have hall : ∀ a ∈ as ++ (before ++ (q ++ after), c) :: bs, a.2.WrittenAs a.1 := by
        simp only [List.forall_mem_append, List.forall_mem_cons] at hargs ⊢
        exact ⟨hargs.1, hq.padded hbefore hafter, hargs.2⟩
      have hne : as ++ (before ++ (q ++ after), c) :: bs ≠ [] := by simp
      simpa [call, source] using Element.WrittenAs.call hf hn hall hne
    exact ⟨hcall, hcall.template, fun ctx host hh =>
      Element.value_call_constant ctx hh f s (.string s) _ _⟩

/-- A string with all that is escaped, also as the second argument of a call. -/
theorem written_string_escapes :
    let s : Text := "é\"\\\n\t".toList
    let body : Text := "é\\\"\\\\\\n\\t".toList
    let c : Element := .constant s (.string s)
    let call : Element := .call "f".toList [.access "x".toList, c]
    let host : Host Nat := ⟨fun f as n => (.ok (.string (f ++ as.flatten)), n + 1)⟩
    let ctx := Context.ofRecord (Utf8.encode "\x7b\"x\":\"y\"\x7d".toList) (some host)
    (marker ∉ s ∧ Value.Escapes s body) ∧
      parse "$\"é\\\"\\\\\\n\\t\"$".toList = .ok ⟨[⟨.emit c, none⟩], some 0⟩ ∧
      parse "$f(x, \"é\\\"\\\\\\n\\t\")$".toList = .ok ⟨[⟨.emit call, none⟩], some 0⟩ ∧
      (call.value ctx 5).result = .ok (.string "fyé\"\\\n\t".toList) := by
  intro s body c call host ctx
  have hs : marker ∉ s := by decide
  have hb : Value.Escapes s body :=
    .plain (by decide) (.quote (.backslash (.lineFeed (.tab .nil))))
  obtain ⟨-, ⟨hparse, -⟩, hcalls⟩ := (written_string hs).2 body hb
  have hx : (Element.access "x".toList).WrittenAs "x".toList := ⟨by decide, _, rfl, rfl⟩
  have hf : (Token.path "f".toList).WellSpelled :=
    ⟨.mk rfl (rfl : ([] : Text).all Token.isWordChar = true) .nil,
      (Token.alone_eq_iff _).mp rfl⟩
  obtain ⟨-, hcall, hvalue⟩ := hcalls "f".toList [("x".toList, .access "x".toList)] [] [' '] [] hf
    rfl (by simpa using hx) rfl rfl
  refine ⟨⟨hs, hb⟩, hparse, hcall, ?_⟩
  have hresult := congrArg (fun v => (v 5).result) (hvalue ctx host rfl)
  exact hresult.trans (by decide +kernel)

end Template
end MailMerge
