import MailMerge.Proofs.MacroLines
import MailMerge.Proofs.Splitting

/-!
# The uses of a macro

A macro is expanded before its template is split: wherever the name is found between two markers,
it is replaced together with them. A use of the macro is a block, an expression that is the name.
Both views agree exactly if no literal run that is the name stands between two blocks, unless it
follows a use, whose closing marker is gone by then. Both are compared on the pieces of the template
between its markers: `uniteFound` unites pieces around every name that is found, `uniteUses` around
those that are expressions.
-/

namespace MailMerge

/-! ### Replacing a name between markers -/

namespace Text

/-- What has been replaced is passed over. -/
theorem replaceFrom_skip (needle value w r : Text) :
    replaceFrom needle value w.length (w ++ r) = replaceFrom needle value 0 r := by
  induction w with
  | nil => rfl
  | cons c w ih => exact ih

/-- A text without line feeds is replaced line by line. -/
theorem replaceFrom_break {needle : Text} (hn : '\n' ∉ needle) (hne : needle ≠ []) (value : Text) :
    ∀ (l r : Text) {skip : Nat}, skip ≤ l.length →
      replaceFrom needle value skip (l ++ '\n' :: r) =
        replaceFrom needle value skip l ++ '\n' :: replaceFrom needle value 0 r := by
  intro l r
  induction l with
  | nil =>
    intro skip h
    cases Nat.le_zero.mp h
    have hfront : needle.isPrefixOf ('\n' :: r) = false := by
      cases needle with
      | nil => exact absurd rfl hne
      | cons c n =>
        rw [List.mem_cons, not_or] at hn
        simp [List.isPrefixOf, Ne.symm hn.1]
    rw [List.nil_append, replaceFrom, replaceFrom, hfront]
    rfl
  | cons c l ih =>
    intro skip h
    cases skip with
    | succ skip => exact ih (Nat.le_of_succ_le_succ h)
    | zero =>
      -- the needle cannot reach past the line feed
      have hfront : needle.isPrefixOf (c :: l ++ '\n' :: r) = needle.isPrefixOf (c :: l) := by
        rw [Bool.eq_iff_iff, List.isPrefixOf_iff_prefix, List.isPrefixOf_iff_prefix]
        refine ⟨fun hp => ?_, fun hp => hp.trans (List.prefix_append _ _)⟩
        rcases Nat.lt_or_ge (c :: l).length needle.length with hlt | hle
        · have hl := List.prefix_of_prefix_length_le (List.prefix_append (c :: l ++ ['\n']) r)
            (by simpa using hp) (by simpa using Nat.succ_le_of_lt hlt)
          exact absurd (hl.subset (by simp)) hn
        · exact List.prefix_of_prefix_length_le hp (List.prefix_append _ _) hle
      rw [List.cons_append, replaceFrom, replaceFrom, ← List.cons_append, hfront]
      split
      · next hp =>
        have hlen := (List.isPrefixOf_iff_prefix.mp hp).length_le
        rw [List.length_cons] at hlen
        rw [ih (by omega), List.append_assoc]
      · rw [ih (Nat.zero_le _)]
        rfl

/-- Replacing every line of a text replaces the text. -/
theorem replaceAll_lines {needle : Text} (hn : '\n' ∉ needle) (hne : needle ≠ []) (value t : Text) :
    (t.lines.map (replaceAll needle value)).flatten = replaceAll needle value t := by
  induction hlen : t.length using Nat.strong_induction_on generalizing t with
  | _ n ih =>
    by_cases hfeed : '\n' ∈ t
    · obtain ⟨l, r, rfl, hl⟩ := List.eq_append_cons_of_mem hfeed
      have hline : replaceAll needle value (l ++ ['\n']) =
          replaceFrom needle value 0 l ++ ['\n'] := by
        rw [replaceAll, replaceFrom_break hn hne value l [] (Nat.zero_le _)]
        rfl
      have hr := ih r.length (by rw [← hlen, List.length_append, List.length_cons]; omega) r rfl
      rw [lines_break hl, List.map_cons, List.flatten_cons, hr, hline, replaceAll, replaceAll,
        replaceFrom_break hn hne value l r (Nat.zero_le _), List.append_assoc]
      rfl
    · cases t with
      | nil => rfl
      | cons c t =>
        rw [lines_of_not_mem hfeed (List.cons_ne_nil c t), List.map_singleton,
          List.flatten_singleton]

end Text

namespace Macros

/-! ### Expansion on pieces -/

section Pieces

variable (name value : Text)

/-- The pieces of a text from `p` on, united wherever the name is found between two markers. -/
def uniteFound (p : Text) : List Text → List Text
  | q :: r :: ps =>
    if q = name then uniteFound (p ++ value ++ r) ps else p :: uniteFound q (r :: ps)
  | ps => p :: ps

/-- The pieces of a text, a literal text `t` and pairs of an expression and a literal text, united
wherever an expression is the name. -/
def uniteUses (t : Text) : List Text → List Text
  | e :: u :: r =>
    if e = name then uniteUses (t ++ value ++ u) r else t :: e :: uniteUses u r
  | r => t :: r

end Pieces

variable {name value : Text}

theorem useOf_ne_nil (name : Text) : useOf name ≠ [] := List.cons_ne_nil _ _

/-- A use is replaced as a whole. -/
theorem replaceAll_use (name value r : Text) :
    Text.replaceAll (useOf name) value (useOf name ++ r) =
      value ++ Text.replaceAll (useOf name) value r := by
  have hskip := Text.replaceFrom_skip (useOf name) value (name ++ ['$']) r
  have hfront : (useOf name).isPrefixOf ('$' :: (name ++ ['$'] ++ r)) = true :=
    List.isPrefixOf_iff_prefix.mpr (List.prefix_append (useOf name) r)
  have hlen : (useOf name).length - 1 = (name ++ ['$']).length := rfl
  change Text.replaceFrom (useOf name) value 0 ('$' :: (name ++ ['$'] ++ r)) = _
  rw [Text.replaceFrom, if_pos hfront, hlen, hskip]
  rfl

/-- Outside of markers nothing is replaced. -/
theorem replaceAll_literal {p : Text} (h : marker ∉ p) (r : Text) :
    Text.replaceAll (useOf name) value (p ++ r) = p ++ Text.replaceAll (useOf name) value r := by
  induction p with
  | nil => rfl
  | cons c p ih =>
    rw [List.mem_cons, not_or] at h
    have hfront : ¬ (useOf name).isPrefixOf (c :: (p ++ r)) = true := by
      intro hp
      exact h.1 (List.cons_prefix_cons.mp (List.isPrefixOf_iff_prefix.mp hp)).1
    rw [List.cons_append, Text.replaceAll, Text.replaceFrom, if_neg hfront]
    exact congrArg (c :: ·) (ih h.2)

theorem replaceAll_of_not_mem {p : Text} (h : marker ∉ p) :
    Text.replaceAll (useOf name) value p = p := by
  have hp : Text.replaceAll (useOf name) value (p ++ []) = p ++ [] := replaceAll_literal h []
  rwa [List.append_nil] at hp

/-- A marker stays if no use begins with it. -/
theorem replaceAll_marker {r : Text} (h : ¬ useOf name <+: marker :: r) :
    Text.replaceAll (useOf name) value (marker :: r) =
      marker :: Text.replaceAll (useOf name) value r := by
  rw [Text.replaceAll, Text.replaceFrom, if_neg fun hp => h (List.isPrefixOf_iff_prefix.mp hp)]
  rfl

/-- A use begins with a marker exactly if the next piece is the name and another one follows. -/
theorem useOf_prefix_iff (hn : marker ∉ name) (r : Text) :
    useOf name <+: marker :: r ↔ ∃ ps, ps ≠ [] ∧ Text.pieces marker r = name :: ps := by
  have hcons : useOf name <+: marker :: r ↔ ∃ s, r = name ++ marker :: s := by
    rw [useOf, show '$' = marker from rfl, List.cons_prefix_cons, and_iff_right rfl]
    constructor
    · rintro ⟨s, rfl⟩
      exact ⟨s, by rw [List.append_assoc]; rfl⟩
    · rintro ⟨s, rfl⟩
      exact ⟨s, by rw [List.append_assoc]; rfl⟩
  rw [hcons]
  constructor
  · rintro ⟨s, rfl⟩
    exact ⟨_, Text.pieces_ne_nil marker s, by
      rw [Text.pieces_mark, Text.pieces_of_not_mem hn]; rfl⟩
  · rintro ⟨ps, hne, hp⟩
    obtain ⟨q, ps, rfl⟩ := List.exists_cons_of_ne_nil hne
    refine ⟨Text.join [marker] (q :: ps), ?_⟩
    rw [← Text.join_cons, ← hp, Text.join_pieces]

/-- Replacing the uses of a name unites the pieces of a text wherever the name is found. -/
theorem pieces_replaceAll (hn : marker ∉ name) (hv : marker ∉ value) (p : Text) (ps : List Text)
    (h : ∀ q ∈ p :: ps, marker ∉ q) :
    Text.pieces marker
        (Text.replaceAll (useOf name) value (Text.join [marker] (p :: ps))) =
      uniteFound name value p ps := by
  fun_induction uniteFound name value p ps with
  | case1 p r ps ih =>
    have hp := h p List.mem_cons_self
    have huse : p ++ marker :: (name ++ marker :: Text.join [marker] (r :: ps)) =
        p ++ (useOf name ++ Text.join [marker] (r :: ps)) := by
      rw [useOf, List.cons_append, List.append_assoc]
      rfl
    have hunited : ∀ q ∈ (p ++ value ++ r) :: ps, marker ∉ q := by
      simp only [List.mem_cons, forall_eq_or_imp] at h ⊢
      simp only [List.mem_append, not_or]
      exact ⟨⟨⟨hp, hv⟩, h.2.2.1⟩, h.2.2.2⟩
    rw [← ih hunited, Text.join_append, replaceAll_literal (by simp [hp, hv]), Text.join_cons,
      Text.join_cons, huse, replaceAll_literal hp, replaceAll_use, List.append_assoc]
  | case2 p q r ps hq ih =>
    have hrest : ∀ s ∈ q :: r :: ps, marker ∉ s := fun s hs => h s (List.mem_cons_of_mem _ hs)
    have huse : ¬ useOf name <+: marker :: Text.join [marker] (q :: r :: ps) := by
      rw [useOf_prefix_iff hn, Text.pieces_join _ _ _ hrest]
      rintro ⟨ps', -, hps⟩
      exact hq (List.cons.inj hps).1
    rw [Text.join_cons, replaceAll_literal (h p List.mem_cons_self), replaceAll_marker huse,
      Text.pieces_mark, Text.pieces_of_not_mem (h p List.mem_cons_self), ih hrest]
    rfl
  | case3 p ps hps =>
    have hp := h p List.mem_cons_self
    rcases ps with _ | ⟨q, _ | ⟨r, ps⟩⟩
    · rw [Text.join, List.intercalate_singleton, replaceAll_of_not_mem hp,
        Text.pieces_of_not_mem hp]
    · have hq := Text.pieces_of_not_mem (h q (by simp))
      have huse : ¬ useOf name <+: marker :: q := by
        rw [useOf_prefix_iff hn, hq]
        rintro ⟨ps', hne, hps'⟩
        exact hne (List.cons.inj hps').2.symm
      have hjoin : Text.join [marker] [p, q] = p ++ marker :: q := by
        rw [Text.join_cons, Text.join, List.intercalate_singleton]
      rw [hjoin, replaceAll_literal hp, replaceAll_marker huse,
        replaceAll_of_not_mem (h q (by simp)), Text.pieces_mark, Text.pieces_of_not_mem hp, hq]
      rfl
    · exact absurd rfl (hps q r ps)

/-- The pieces that are left come two by two. -/
theorem length_uniteFound (name value p : Text) (ps : List Text) :
    (uniteFound name value p ps).length % 2 = (ps.length + 1) % 2 := by
  fun_induction uniteFound name value p ps with
  | case1 p r ps ih => rw [ih, List.length_cons, List.length_cons]; omega
  | case2 p q r ps hq ih =>
    simp only [List.length_cons] at ih ⊢
    omega
  | case3 p ps hps => rfl

theorem uniteUses_ne_nil (t : Text) (r : List Text) : uniteUses name value t r ≠ [] := by
  fun_induction uniteUses name value t r with
  | case1 t u r ih => exact ih
  | case2 t e u r he ih => exact List.cons_ne_nil _ _
  | case3 t r hr => exact List.cons_ne_nil _ _

theorem not_mem_uniteUses (hv : marker ∉ value) {t : Text} {r : List Text}
    (h : ∀ q ∈ t :: r, marker ∉ q) : ∀ q ∈ uniteUses name value t r, marker ∉ q := by
  fun_induction uniteUses name value t r with
  | case1 t u r ih =>
    simp only [List.mem_cons, forall_eq_or_imp] at h
    refine ih fun q hq => ?_
    rcases List.mem_cons.mp hq with rfl | hq
    · simp [h.1, hv, h.2.2.1]
    · exact h.2.2.2 q hq
  | case2 t e u r he ih =>
    simp only [List.mem_cons, forall_eq_or_imp] at h ⊢
    exact ⟨h.1, h.2.1, ih (by simpa only [List.mem_cons, forall_eq_or_imp] using h.2.2)⟩
  | case3 t r hr => exact h

/-! ### Where both views agree -/

/-- An expression and a literal text after it, two by two: no literal text is the name if another
expression follows it, unless the expression before it is the name. -/
def Separate (name : Text) : List Text → Prop
  | e :: u :: r => (u = name → e = name ∨ r = []) ∧ Separate name r
  | _ => True

theorem length_uniteUses (name value t t' : Text) (r : List Text) :
    (uniteUses name value t r).length = (uniteUses name value t' r).length := by
  match r with
  | [] => rfl
  | [e] => rfl
  | e :: u :: r =>
    rw [uniteUses, uniteUses]
    split
    · exact length_uniteUses name value _ _ r
    · rfl

/-- The first piece that is left begins with the first piece. -/
theorem uniteFound_head (name value p : Text) (ps : List Text) :
    ∃ s w, uniteFound name value p ps = (p ++ s) :: w := by
  fun_induction uniteFound name value p ps with
  | case1 p r ps ih =>
    obtain ⟨s, w, h⟩ := ih
    exact ⟨value ++ (r ++ s), w, by rw [h, List.append_assoc, List.append_assoc]⟩
  | case2 p q r ps hq ih => exact ⟨[], _, by rw [List.append_nil]⟩
  | case3 p ps hps => exact ⟨[], _, by rw [List.append_nil]⟩

/-- At least as many pieces are united around the names that are found as around uses, also if the
search begins one piece earlier. -/
theorem length_uniteFound_le (name value t : Text) (r : List Text) :
    (uniteFound name value t r).length ≤ (uniteUses name value t r).length ∧
      ∀ p, (uniteFound name value p (t :: r)).length ≤ (uniteUses name value t r).length + 1 := by
  match r with
  | [] => exact ⟨Nat.le_refl _, fun p => Nat.le_refl _⟩
  | [e] =>
    refine ⟨Nat.le_refl _, fun p => ?_⟩
    rw [uniteFound]
    split
    · exact Nat.le_add_left _ _
    · exact Nat.le_refl _
  | e :: u :: r =>
    have hfirst : (uniteFound name value t (e :: u :: r)).length ≤
        (uniteUses name value t (e :: u :: r)).length := by
      rw [uniteFound, uniteUses]
      split
      · exact (length_uniteFound_le name value _ r).1
      · simpa using (length_uniteFound_le name value u r).2 e
    refine ⟨hfirst, fun p => ?_⟩
    rw [uniteFound]
    split
    · refine ((length_uniteFound_le name value u r).2 _).trans (Nat.succ_le_succ ?_)
      rw [uniteUses]
      split
      · exact Nat.le_of_eq (length_uniteUses name value _ _ r)
      · simp only [List.length_cons]
        omega
    · exact Nat.succ_le_succ hfirst

/-- The pieces are united in the same way exactly if the name stands separate. -/
theorem uniteFound_eq_iff (hne : name ≠ []) (value t : Text) (r : List Text) :
    uniteFound name value t r = uniteUses name value t r ↔ Separate name r := by
  match r with
  | [] => exact iff_of_true rfl trivial
  | [e] => exact iff_of_true rfl trivial
  | e :: u :: r =>
    rw [uniteFound, uniteUses, Separate]
    by_cases he : e = name
    · rw [if_pos he, if_pos he, uniteFound_eq_iff hne value _ r]
      exact ⟨fun h => ⟨fun _ => .inl he, h⟩, And.right⟩
    · rw [if_neg he, if_neg he, List.cons.injEq, and_iff_right rfl]
      match r with
      | [] => exact iff_of_true rfl ⟨fun _ => .inr rfl, trivial⟩
      | x :: r =>
        rw [uniteFound]
        by_cases hu : u = name
        · -- a literal text is found: the expression before it, or a block after it, gets lost
          rw [if_pos hu]
          refine iff_of_false (fun h => ?_) fun h => ?_
          · obtain ⟨s, w, hhead⟩ := uniteFound_head name value (e ++ value ++ x) r
            have hx : x = [] := by
              rw [hhead] at h
              have hlen := congrArg List.length (List.cons.inj h).1
              simp only [List.length_append] at hlen
              exact List.length_eq_zero_iff.mp (by omega)
            subst hx
            match r with
            | [] => exact absurd (congrArg List.length h) (by simp [uniteFound, uniteUses])
            | y :: r =>
              have hlost := (length_uniteFound_le name value y r).2 (e ++ value ++ [])
              rw [h, uniteUses, if_neg (Ne.symm hne)] at hlost
              simp only [List.length_cons] at hlost
              omega
          · exact (h.1 hu).elim he (List.cons_ne_nil x r)
        · rw [if_neg hu, List.cons.injEq, and_iff_right rfl, uniteFound_eq_iff hne value u (x :: r)]
          exact ⟨fun h => ⟨fun hu' => absurd hu' hu, h⟩, And.right⟩

end Macros
end MailMerge
