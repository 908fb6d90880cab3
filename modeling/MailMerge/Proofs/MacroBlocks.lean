import MailMerge.Proofs.MacroUses
import Mathlib.Algebra.Group.Nat.Even

/-!
# The blocks of a template with a macro

A definition line before a template replaces the uses of the macro in the blocks of the template by
its value, where every literal run that is the name and has a block on both sides follows a use. The
blocks of any other template change in another way.
-/

namespace MailMerge

theorem Text.cutAt?_of_not_mem {mark : Char} {t : Text} (h : mark ∉ t) (r : Text) :
    Text.cutAt? mark (t ++ mark :: r) = some (t, r) := by
  have hall : ∀ c ∈ t, decide (c ≠ mark) = true := fun c hc =>
    decide_eq_true fun he => h (he ▸ hc)
  rw [Text.cutAt?, List.dropWhile_append_of_pos hall, List.takeWhile_append_of_pos hall]
  simp

namespace Block

/-! ### Blocks of pieces -/

/-- The blocks of pieces from a line on. -/
def ofPieces (line : Nat) : List Text → Except TemplateError (List Block)
  | [] => .ok []
  | t :: r => (ofPairs (line + t.lineFeeds) r).map (literal line t ++ ·)

theorem split_eq_ofPieces (s : Text) : split s = ofPieces 1 (s.pieces marker) := rfl

/-- Pieces around an expression. -/
theorem ofPieces_between {line : Nat} (t e : Text) {r : List Text} {ks : List Block} (hr : r ≠ [])
    (h : ofPieces (line + t.lineFeeds + e.lineFeeds) r = .ok ks) :
    ofPieces line (t :: e :: r) =
      .ok (literal line t ++ between (line + t.lineFeeds) e :: ks) := by
  obtain ⟨u, r, rfl⟩ := List.exists_cons_of_ne_nil hr
  obtain ⟨rest, hrest, rfl⟩ := Parsing.ok_of_map h
  rw [ofPieces, ofPairs, hrest]
  rfl

/-- Pairs always are blocks. -/
theorem exists_ofPairs (line : Nat) {r : List Text} (h : r.length % 2 = 0) :
    ∃ ks, ofPairs line r = .ok ks := by
  fun_induction ofPairs line r with
  | case1 line => exact ⟨_, rfl⟩
  | case2 line e => simp at h
  | case3 line e t r after ih =>
    obtain ⟨ks, hks⟩ := ih (by simp only [List.length_cons] at h; omega)
    exact ⟨_, by rw [hks]; rfl⟩

theorem exists_ofPieces (line : Nat) (ps : List Text) (h : ps.length % 2 = 1) :
    ∃ ks, ofPieces line ps = .ok ks := by
  obtain ⟨t, r, rfl⟩ := List.exists_cons_of_ne_nil (l := ps) (by rintro rfl; simp at h)
  obtain ⟨ks, hks⟩ := exists_ofPairs (line + t.lineFeeds) (r := r)
    (by rw [List.length_cons] at h; omega)
  exact ⟨_, by rw [ofPieces, hks]; rfl⟩

/-! ### The sources of blocks -/

theorem flatMap_source_literal {line : Nat} {t : Text} (h : marker ∉ t) :
    (literal line t).flatMap source = t := by
  unfold literal
  split
  · next he => exact (List.isEmpty_iff.mp he).symm
  · have hm : t ≠ [marker] := by
      rintro rfl
      exact h (List.mem_singleton_self _)
    simp [source, hm]

theorem source_between (line : Nat) (e : Text) :
    (between line e).source = marker :: (e ++ [marker]) := by
  unfold between
  split
  · next he =>
    rw [List.isEmpty_iff.mp he]
    rfl
  · rfl

/-- The sources of the blocks, one after the other, are what has been split. -/
theorem flatMap_source_of_ofPairs {line : Nat} {r : List Text} {ks : List Block} (t : Text)
    (hm : ∀ p ∈ r, marker ∉ p) (h : ofPairs line r = .ok ks) :
    t ++ ks.flatMap source = Text.join [marker] (t :: r) := by
  fun_induction ofPairs line r generalizing t ks with
  | case1 line =>
    cases h
    simp [Text.join]
  | case2 line e => cases h
  | case3 line e u r _ =>
    rename_i ih
    obtain ⟨rest, hrest, h⟩ := Parsing.ok_of_bind h
    cases h
    simp only [List.mem_cons, forall_eq_or_imp] at hm
    rw [List.flatMap_cons, List.flatMap_append, source_between, flatMap_source_literal hm.2.1,
      ih u hm.2.2 hrest, Text.join_cons, Text.join_cons]
    simp

theorem flatMap_source_of_ofPieces {line : Nat} {ps : List Text} {ks : List Block} (hne : ps ≠ [])
    (hm : ∀ p ∈ ps, marker ∉ p) (h : ofPieces line ps = .ok ks) :
    ks.flatMap source = Text.join [marker] ps := by
  obtain ⟨t, r, rfl⟩ := List.exists_cons_of_ne_nil hne
  obtain ⟨rest, hrest, rfl⟩ := Parsing.ok_of_map h
  rw [List.flatMap_append, flatMap_source_literal (hm t List.mem_cons_self)]
  exact flatMap_source_of_ofPairs t (fun p hp => hm p (List.mem_cons_of_mem _ hp)) hrest

/-- No other pieces have the same blocks. -/
theorem ofPieces_inj {line : Nat} {ps qs : List Text} {ks : List Block} (hps : ps ≠ [])
    (hqs : qs ≠ []) (hmp : ∀ p ∈ ps, marker ∉ p) (hmq : ∀ q ∈ qs, marker ∉ q)
    (hp : ofPieces line ps = .ok ks) (hq : ofPieces line qs = .ok ks) : ps = qs := by
  have hjoin := (flatMap_source_of_ofPieces hps hmp hp).symm.trans
    (flatMap_source_of_ofPieces hqs hmq hq)
  obtain ⟨p, ps, rfl⟩ := List.exists_cons_of_ne_nil hps
  obtain ⟨q, qs, rfl⟩ := List.exists_cons_of_ne_nil hqs
  rw [← Text.pieces_join marker p ps hmp, ← Text.pieces_join marker q qs hmq, hjoin]

/-! ### Literal runs -/

/-- Whether a block is literal text other than an escaped marker. -/
def isRun (b : Block) : Bool := !b.isExpression && b.text != [marker]

/-- A literal text before blocks: left out if it is empty, and merged with a run that follows. -/
def prepend (line : Nat) (t : Text) : List Block → List Block
  | [] => literal line t
  | b :: ks =>
    if t.isEmpty then b :: ks
    else if b.isRun then ⟨t ++ b.text, false, line⟩ :: ks
    else ⟨t, false, line⟩ :: b :: ks

/-- Blocks with adjacent literal runs merged. -/
def mergeRuns : List Block → List Block
  | [] => []
  | b :: ks => if b.isRun then prepend b.line b.text (mergeRuns ks) else b :: mergeRuns ks

theorem prepend_empty (line : Nat) (ks : List Block) : prepend line [] ks = ks := by
  cases ks <;> rfl

theorem prepend_run (line : Nat) {t : Text} (ht : t ≠ []) {b : Block} (h : b.isRun = true)
    (ks : List Block) : prepend line t (b :: ks) = ⟨t ++ b.text, false, line⟩ :: ks := by
  rw [prepend, if_neg (mt List.isEmpty_iff.mp ht), if_pos h]

theorem prepend_of_not_isRun (line : Nat) (t : Text) {b : Block} (h : b.isRun = false)
    (ks : List Block) : prepend line t (b :: ks) = literal line t ++ b :: ks := by
  rw [prepend, h, literal]
  split
  · rfl
  · rfl

theorem isRun_literal {t : Text} (h : ∀ s, t ≠ marker :: s) (line : Nat) :
    isRun ⟨t, false, line⟩ = true := by
  simp [isRun, h []]

/-- A literal text before another one and what follows it is one run with it. -/
theorem prepend_append (a : Text) {b : Text} (hb : marker ∉ b) (line : Nat) (ks : List Block) :
    prepend line a (prepend (line + a.lineFeeds) b ks) = prepend line (a ++ b) ks := by
  by_cases ha : a = []
  · rw [ha]
    exact prepend_empty line _
  by_cases hne : b = []
  · rw [hne, prepend_empty, List.append_nil]
  have hrun : ∀ s r, b ++ r ≠ marker :: s := by
    intro s r h
    obtain ⟨c, b, rfl⟩ := List.exists_cons_of_ne_nil hne
    exact hb ((List.cons.inj h).1 ▸ List.mem_cons_self)
  have hab : a ++ b ≠ [] := fun h => ha (List.append_eq_nil_iff.mp h).1
  cases ks with
  | nil =>
    have hlit : prepend (line + a.lineFeeds) b [] = [⟨b, false, line + a.lineFeeds⟩] :=
      if_neg (mt List.isEmpty_iff.mp hne)
    rw [hlit, prepend_run line ha (isRun_literal (fun s => by simpa using hrun s []) _)]
    exact (if_neg (mt List.isEmpty_iff.mp hab)).symm
  | cons k ks =>
    cases hk : k.isRun with
    | true =>
      rw [prepend_run _ hne hk, prepend_run _ ha (isRun_literal (hrun · k.text) _),
        prepend_run _ hab hk, List.append_assoc]
    | false =>
      rw [prepend_of_not_isRun _ b hk, prepend_of_not_isRun _ _ hk, literal, literal,
        if_neg (mt List.isEmpty_iff.mp hne), if_neg (mt List.isEmpty_iff.mp hab),
        List.singleton_append,
        prepend_run _ ha (isRun_literal (fun s => by simpa using hrun s []) _)]
      rfl

theorem mergeRuns_literal {t : Text} (h : marker ∉ t) (line : Nat) (ks : List Block) :
    mergeRuns (literal line t ++ ks) = prepend line t (mergeRuns ks) := by
  unfold literal
  split
  · next he => rw [List.isEmpty_iff.mp he, prepend_empty, List.nil_append]
  · have hm : ∀ s, t ≠ marker :: s := by
      rintro s rfl
      exact h List.mem_cons_self
    rw [List.singleton_append, mergeRuns, if_pos (isRun_literal hm line)]

theorem isRun_between (line : Nat) (e : Text) : (between line e).isRun = false := by
  unfold between
  split
  · rfl
  · rfl

theorem mergeRuns_between (line : Nat) (e : Text) (ks : List Block) :
    mergeRuns (between line e :: ks) = between line e :: mergeRuns ks := by
  rw [mergeRuns, isRun_between, if_neg Bool.false_ne_true]

end Block

namespace Macros

open Block

/-- A name and a value that one line can define; neither holds a marker, nor the name a space. -/
structure Definable (name value : Text) : Prop where
  named : name ≠ []
  name_marker : marker ∉ name
  name_space : ' ' ∉ name
  name_feed : '\n' ∉ name
  value_marker : marker ∉ value
  value_feed : '\n' ∉ value

variable {name value : Text}

/-! ### Uses -/

/-- Whether a block is a use of the macro. -/
def IsUse (name : Text) (b : Block) : Prop := b.isExpression = true ∧ b.text = name

instance (name : Text) (b : Block) : Decidable (IsUse name b) :=
  inferInstanceAs (Decidable (_ ∧ _))

/-- A block with the value as literal text in the place of a use. -/
def substitute (name value : Text) (b : Block) : Block :=
  if IsUse name b then ⟨value, false, b.line⟩ else b

/-- Every literal run that is the name and has a block on both sides follows a use. -/
def Unambiguous (name : Text) : List Block → Prop
  | a :: b :: c :: ks =>
    (b.isExpression = false → b.text = name → IsUse name a) ∧ Unambiguous name (b :: c :: ks)
  | _ => True

instance decidableUnambiguous (name : Text) : ∀ ks, Decidable (Unambiguous name ks)
  | [] => .isTrue trivial
  | [_] => .isTrue trivial
  | [_, _] => .isTrue trivial
  | _ :: b :: c :: ks =>
    have := decidableUnambiguous name (b :: c :: ks)
    inferInstanceAs (Decidable ((_ → _ → _) ∧ _))

theorem substitute_literal (line : Nat) (t : Text) :
    (literal line t).map (substitute name value) = literal line t := by
  unfold literal
  split
  · rfl
  · rfl

theorem substitute_use (hne : name ≠ []) (line : Nat) :
    substitute name value (between line name) = ⟨value, false, line⟩ := by
  rw [between, if_neg (mt List.isEmpty_iff.mp hne)]
  exact if_pos ⟨rfl, rfl⟩

theorem substitute_between {e : Text} (h : e ≠ name) (line : Nat) :
    substitute name value (between line e) = between line e := by
  unfold between
  split
  · rfl
  · exact if_neg fun hu => h hu.2

/-- The blocks of the pieces united around uses: the uses are substituted, the runs merged. -/
theorem ofPieces_uniteUses (hd : Definable name value) (line : Nat) (t : Text) {r : List Text}
    {ks : List Block} (hm : ∀ p ∈ r, marker ∉ p) (h : ofPairs (line + t.lineFeeds) r = .ok ks) :
    ofPieces line (uniteUses name value t r) =
      .ok (prepend line t (mergeRuns (ks.map (substitute name value)))) := by
  match r with
  | [] =>
    cases h
    exact congrArg Except.ok (List.append_nil _)
  | [e] => cases h
  | e :: u :: r =>
    obtain ⟨rest, hrest, h⟩ := Parsing.ok_of_bind h
    cases h
    simp only [List.mem_cons, forall_eq_or_imp] at hm
    obtain ⟨-, hu, hr⟩ := hm
    rw [List.map_cons, List.map_append, substitute_literal, uniteUses]
    by_cases he : e = name
    · -- the line stays the same, since neither the name nor the value has line feeds
      have hname : e.lineFeeds = 0 := he ▸ List.count_eq_zero.mpr hd.name_feed
      have hvalue : value.lineFeeds = 0 := List.count_eq_zero.mpr hd.value_feed
      have hfeeds : (t ++ (value ++ u)).lineFeeds = t.lineFeeds + u.lineFeeds := by
        unfold Text.lineFeeds at hvalue ⊢
        rw [List.count_append, List.count_append, hvalue, Nat.zero_add]
      have hrest' : ofPairs (line + (t ++ (value ++ u)).lineFeeds) r = .ok rest := by
        rw [← hrest, hfeeds, hname]
        exact congrArg (ofPairs · r) (by omega)
      have hrun : isRun ⟨value, false, line + t.lineFeeds⟩ = true :=
        isRun_literal (by rintro s rfl; exact hd.value_marker List.mem_cons_self) _
      have hmarker : marker ∉ value ++ u := by simp [hd.value_marker, hu]
      rw [if_pos he, List.append_assoc, ofPieces_uniteUses hd line _ hr hrest', he,
        substitute_use hd.named, mergeRuns, if_pos hrun, mergeRuns_literal hu, ← he, hname,
        ← hvalue, prepend_append value hu, prepend_append t hmarker]
    · have ih := ofPieces_uniteUses hd (line + t.lineFeeds + e.lineFeeds) u hr hrest
      rw [if_neg he, ofPieces_between t e (uniteUses_ne_nil u r) ih, substitute_between he,
        mergeRuns_between, mergeRuns_literal hu, prepend_of_not_isRun line t (isRun_between _ e)]

/-! ### Literal runs that are the name -/

theorem isUse_between (hne : name ≠ []) (line : Nat) (e : Text) :
    IsUse name (between line e) ↔ e = name := by
  unfold IsUse between
  split
  · next he =>
    rw [List.isEmpty_iff.mp he]
    exact iff_of_false (fun h => Bool.false_ne_true h.1) (Ne.symm hne)
  · exact and_iff_right rfl

/-- No literal text between two markers is the name. -/
theorem text_between_ne (hn : marker ∉ name) (line : Nat) (e : Text)
    (h : (between line e).isExpression = false) : (between line e).text ≠ name := by
  unfold between at h ⊢
  split at h
  · next he =>
    rw [if_pos he]
    rintro rfl
    exact hn (List.mem_singleton_self _)
  · cases h

theorem unambiguous_cons {b : Block} (h : b.isExpression = false → b.text ≠ name) (a : Block)
    (ks : List Block) : Unambiguous name (a :: b :: ks) ↔ Unambiguous name (b :: ks) := by
  cases ks with
  | nil => exact Iff.rfl
  | cons c ks =>
    rw [Unambiguous]
    exact and_iff_right fun hb hname => absurd hname (h hb)

/-- Pieces are separate exactly if their blocks are unambiguous. -/
theorem unambiguous_between (hne : name ≠ []) (hn : marker ∉ name) (line after : Nat) (e u : Text)
    {next : Nat} {r : List Text} {ks : List Block} (h : ofPairs next r = .ok ks) :
    Unambiguous name (between line e :: (literal after u ++ ks)) ↔ Separate name (e :: u :: r) := by
  rw [Separate]
  fun_induction ofPairs next r generalizing line after e u ks with
  | case1 next =>
    cases h
    refine iff_of_true ?_ ⟨fun _ => .inr rfl, trivial⟩
    unfold literal
    split
    · trivial
    · trivial
  | case2 next e' => cases h
  | case3 next e' u' r _ =>
    rename_i ih
    obtain ⟨rest, hrest, h⟩ := Parsing.ok_of_bind h
    cases h
    have ih := ih next (next + e'.lineFeeds) e' u' hrest
    rw [← Separate] at ih
    have hlater := unambiguous_cons (text_between_ne hn next e')
    by_cases hu : u = []
    · have hname : u ≠ name := hu ▸ Ne.symm hne
      rw [hu, literal, if_pos List.isEmpty_nil, List.nil_append, hlater, ih, ← hu]
      exact (and_iff_right fun h => absurd h hname).symm
    · rw [literal, if_neg (mt List.isEmpty_iff.mp hu), List.singleton_append, Unambiguous,
        isUse_between hne, hlater, ih]
      simp

theorem unambiguous_split (hne : name ≠ []) (hn : marker ∉ name) {body t : Text} {r : List Text}
    {ks : List Block} (hp : body.pieces marker = t :: r) (h : split body = .ok ks) :
    Unambiguous name ks ↔ Separate name r := by
  rw [split_eq_ofPieces, hp] at h
  obtain ⟨rest, hrest, rfl⟩ := Parsing.ok_of_map h
  match r with
  | [] =>
    cases hrest
    refine iff_of_true ?_ trivial
    rw [List.append_nil]
    unfold literal
    split
    · trivial
    · trivial
  | [e] => cases hrest
  | e :: u :: r =>
    obtain ⟨ks, hks, h⟩ := Parsing.ok_of_bind hrest
    cases h
    rw [← unambiguous_between hne hn (1 + t.lineFeeds) (1 + t.lineFeeds + e.lineFeeds) e u hks,
      literal]
    split
    · exact Iff.rfl
    · exact unambiguous_cons (text_between_ne hn _ e) _ _

/-! ### A definition before a template -/

/-- The line that defines a name. -/
def definitionLine (name value : Text) : Text := lead ++ (name ++ ' ' :: (value ++ ['\n']))

/-- A definition before a template without definitions replaces the uses of its name. -/
theorem expand_definitionLine (hd : Definable name value) {body : Text}
    (h : ∀ line ∈ body.lines, definition? line = none) :
    expand (definitionLine name value ++ body) =
      Text.replaceAll (useOf name) (content value) body := by
  have hline : definitionLine name value ++ body =
      (lead ++ name ++ ' ' :: value) ++ '\n' :: body := by
    simp [definitionLine]
  have hfeed : '\n' ∉ lead ++ name ++ ' ' :: value := by
    simp [lead, hd.name_feed, hd.value_feed]
  have hdefines : definition? (lead ++ name ++ ' ' :: value ++ ['\n']) =
      some (name ++ ' ' :: content value) := by
    rw [definition?, content_lineFeed, content_append _ (by decide), List.append_assoc,
      Text.after?_append]
  have huse : '\n' ∉ useOf name := by
    simp [useOf, hd.name_feed]
  rw [hline, expand, Text.lines_break hfeed, expandLines, hdefines]
  dsimp only
  rw [learn, Text.cutAt?_of_not_mem hd.name_space]
  dsimp only [define]
  rw [expandLines_of_plain _ h]
  exact Text.replaceAll_lines huse (useOf_ne_nil name) (content value) body

theorem Definable.content (hd : Definable name value) : Definable name (content value) where
  __ := hd
  value_marker h := hd.value_marker ((content_isPrefix value).subset h)
  value_feed h := hd.value_feed ((content_isPrefix value).subset h)

/-- A definition before a template without definitions, whose markers come in pairs: what is left
splits into the blocks of the template, with the value in the place of the uses and adjacent literal
runs merged, exactly if every literal run that is the name and has a block on both sides follows a
use. The carriage returns at the end of a definition belong to its line break. -/
theorem split_expand_iff (hd : Definable name value) {body : Text}
    (heven : Even (body.count marker)) (hplain : ∀ line ∈ body.lines, definition? line = none) :
    ∃ ks ks', split body = .ok ks ∧ split (expand (definitionLine name value ++ body)) = .ok ks' ∧
      (ks' = mergeRuns (ks.map (substitute name (content value))) ↔ Unambiguous name ks) := by
  have hc := hd.content
  obtain ⟨t, r, hp⟩ := List.exists_cons_of_ne_nil (Text.pieces_ne_nil marker body)
  have hm : ∀ q ∈ t :: r, marker ∉ q := fun q hq => Text.not_mem_of_mem_pieces (hp ▸ hq)
  have hmr : ∀ q ∈ r, marker ∉ q := fun q hq => hm q (List.mem_cons_of_mem _ hq)
  have hlen : r.length % 2 = 0 := by
    have h := Text.length_pieces marker body
    rw [hp, List.length_cons, Nat.add_right_cancel_iff] at h
    rw [h]
    exact Nat.even_iff.mp heven
  obtain ⟨rest, hrest⟩ := exists_ofPairs (1 + t.lineFeeds) hlen
  have hbody : split body = .ok (literal 1 t ++ rest) := by
    rw [split_eq_ofPieces, hp, ofPieces, hrest]
    rfl
  -- the pieces of what is left
  have hexpand := expand_definitionLine hd hplain
  have hfound : (expand (definitionLine name value ++ body)).pieces marker =
      uniteFound name (content value) t r := by
    rw [hexpand, ← pieces_replaceAll hd.name_marker hc.value_marker t r hm, ← hp, Text.join_pieces]
  obtain ⟨ks', hks'⟩ := exists_ofPieces 1 (uniteFound name (content value) t r)
    (by rw [length_uniteFound]; omega)
  refine ⟨_, ks', hbody, by rw [split_eq_ofPieces, hfound, hks'], ?_⟩
  have huses := ofPieces_uniteUses hc 1 t hmr hrest
  rw [unambiguous_split hd.named hd.name_marker hp hbody,
    ← uniteFound_eq_iff hd.named (content value) t r, List.map_append, substitute_literal,
    mergeRuns_literal (hm t List.mem_cons_self)]
  constructor
  · rintro rfl
    refine ofPieces_inj ?_ (uniteUses_ne_nil t r) ?_ (not_mem_uniteUses hc.value_marker hm) hks'
      huses
    · exact hfound ▸ Text.pieces_ne_nil marker _
    · exact fun q hq => Text.not_mem_of_mem_pieces (hfound ▸ hq)
  · intro h
    rw [h] at hks'
    exact Except.ok.inj (hks'.symm.trans huses)

/-- After a use the name is literal text, also before an escaped marker and at the end. -/
theorem split_expand_name_after_use :
    ∃ ks ks', (Definable ['n'] ['v'] ∧ Even ("n$n$n$$n".toList.count marker) ∧
        (∀ line ∈ Text.lines "n$n$n$$n".toList, definition? line = none) ∧ Unambiguous ['n'] ks) ∧
      split "n$n$n$$n".toList = .ok ks ∧
      split (expand "$$$ n v\nn$n$n$$n".toList) = .ok ks' ∧
      ks' = [⟨"nvn".toList, false, 1⟩, ⟨['$'], false, 1⟩, ⟨['n'], false, 1⟩] ∧
      ks' = mergeRuns (ks.map (substitute ['n'] ['v'])) := by
  have hd : Definable ['n'] ['v'] := by constructor <;> decide
  have heven : Even ("n$n$n$$n".toList.count marker) := by decide
  have hplain : ∀ line ∈ Text.lines "n$n$n$$n".toList, definition? line = none := by decide
  obtain ⟨ks, ks', hks, hks', hiff⟩ := split_expand_iff hd heven hplain
  have hblocks : split "n$n$n$$n".toList = .ok [⟨['n'], false, 1⟩, ⟨['n'], true, 1⟩,
      ⟨['n'], false, 1⟩, ⟨['$'], false, 1⟩, ⟨['n'], false, 1⟩] := rfl
  have hsame := Except.ok.inj (hks.symm.trans hblocks)
  have hun : Unambiguous ['n'] ks := hsame ▸ by decide
  have hmerged := hiff.mpr hun
  exact ⟨ks, ks', ⟨hd, heven, hplain, hun⟩, hks, hks', by rw [hmerged, hsame]; decide, hmerged⟩

/-- Between two expressions that are no uses the name is taken for a use. -/
theorem split_expand_name_between_expressions :
    (Definable ['n'] ['v'] ∧ Even ("$a$n$b$".toList.count marker) ∧
      ∀ line ∈ Text.lines "$a$n$b$".toList, definition? line = none) ∧
    ¬ ∃ ks ks', split "$a$n$b$".toList = .ok ks ∧
      split (expand (definitionLine ['n'] ['v'] ++ "$a$n$b$".toList)) = .ok ks' ∧
      ks' = mergeRuns (ks.map (substitute ['n'] ['v'])) := by
  refine ⟨⟨by constructor <;> decide, by decide, by decide⟩, ?_⟩
  rintro ⟨ks, ks', hks, hks', h⟩
  have hblocks : split "$a$n$b$".toList =
      .ok [⟨['a'], true, 1⟩, ⟨['n'], false, 1⟩, ⟨['b'], true, 1⟩] := rfl
  have hblocks' : split (expand (definitionLine ['n'] ['v'] ++ "$a$n$b$".toList)) =
      .ok [⟨"avb".toList, true, 1⟩] := rfl
  cases Except.ok.inj (hks.symm.trans hblocks)
  cases Except.ok.inj (hks'.symm.trans hblocks')
  exact absurd h (by decide)

end Macros
end MailMerge
