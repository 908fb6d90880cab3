import MailMerge.Proofs.ItemPaths

/-!
# Patterns put together

A pattern with a continuation after it has the segments of both, and leads to what the continuation
leads to from where the pattern leads. So an arrow means what a point means wherever it stands, in
lookups through loop scopes as well, and the remainder that a loop hands to the element it runs over
has the segments after the item.
-/

namespace MailMerge

namespace Pattern

/-! ### Arrows written as points -/

/-- A pattern, and the same pattern with any of its arrows written as points. -/
inductive Pointed : Text → Text → Prop where
  | nil : Pointed [] []
  | keep (c : Char) {p q : Text} (h : Pointed p q) : Pointed (c :: p) (c :: q)
  | point {p q : Text} (h : Pointed p q) : Pointed ('-' :: '>' :: p) ('.' :: q)

theorem segments_arrow (r : Text) : segments ('-' :: '>' :: r) = segments r := rfl

theorem segments_point (r : Text) : segments ('.' :: r) = segments r := rfl

namespace Pointed

variable {p q name : Text}

/-- Behind any text the segments are the same: a character that is kept goes over to that text, and
at an arrow the pattern is cut. -/
theorem segments_behind (h : Pointed p q) (s : Text) : segments (s ++ p) = segments (s ++ q) := by
  induction h generalizing s with
  | nil => rfl
  | keep c _ ih => simpa only [List.append_assoc, List.singleton_append] using ih (s ++ [c])
  | @point p q _ ih =>
    have hrest : segments p = segments q := ih []
    calc segments (s ++ '-' :: '>' :: p)
      _ = segments s ++ segments p := by rw [segments_append rfl, segments_arrow]
      _ = segments s ++ segments q := by rw [hrest]
      _ = segments (s ++ '.' :: q) := by rw [segments_append rfl, segments_point]

theorem segments_eq (h : Pointed p q) : segments q = segments p := (h.segments_behind []).symm

theorem nil_iff (h : Pointed p q) : q = [] ↔ p = [] := by
  cases h with
  | nil => exact Iff.rfl
  | keep c h => exact ⟨nofun, nofun⟩
  | point h => exact ⟨nofun, nofun⟩

theorem cons_inv {c : Char} (h : Pointed (c :: p) q) (hc : c ≠ '-') :
    ∃ r, q = c :: r ∧ Pointed p r := by
  cases h with
  | keep _ h => exact ⟨_, rfl, h⟩
  | point h => exact absurd rfl hc

/-- No arrow begins in a name. -/
theorem name_inv (hn : name.all Token.isWordChar = true) (h : Pointed (name ++ p) q) :
    ∃ r, q = name ++ r ∧ Pointed p r := by
  induction name generalizing q with
  | nil => exact ⟨q, rfl, h⟩
  | cons c name ih =>
    rw [List.all_cons, Bool.and_eq_true] at hn
    obtain ⟨_, rfl, hrest⟩ := cons_inv h (ne_of_isWordChar hn.1 rfl)
    obtain ⟨r, rfl, hr⟩ := ih hn.2 hrest
    exact ⟨r, rfl, hr⟩

theorem isContinuation (h : Pointed p q) (hp : isContinuation p = true) :
    isContinuation q = true := by
  rcases isContinuation_iff.mp hp with rfl | ⟨r, rfl⟩ | ⟨r, rfl⟩ | ⟨r, rfl⟩
  · rw [h.nil_iff.mpr rfl]
    rfl
  · cases h with
    | keep _ h =>
      obtain ⟨r, rfl, -⟩ := cons_inv h (by decide)
      rfl
    | point _ => rfl
  · obtain ⟨r, rfl, -⟩ := cons_inv h (by decide)
    rfl
  · obtain ⟨r, rfl, -⟩ := cons_inv h (by decide)
    rfl

end Pointed

/-! ### What follows the item of a loop -/

/-- A loop's item is stripped exactly of the paths that begin with it as a segment, and the segments
that are left are the others. -/
theorem IsPath.afterItem?_iff {p item : Text} (hp : IsPath p)
    (hi : Token.isPlainName item = true) :
    ((afterItem? p item).isSome = true ↔ (segments p).head? = some item) ∧
      ∀ rest, afterItem? p item = some rest → segments p = item :: segments rest := by
  obtain ⟨name, steps, rfl, hn, hs, hsegments⟩ := hp.split
  rw [afterItem?_name hn hs.isContinuation hi, hsegments]
  by_cases h : name = item
  · subst h
    rw [if_pos rfl]
    refine ⟨⟨fun _ => rfl, fun _ => rfl⟩, fun rest hrest => ?_⟩
    rw [Option.some.inj hrest]
  · rw [if_neg h]
    refine ⟨⟨nofun, fun he => absurd (Option.some.inj he) h⟩, nofun⟩

end Pattern

/-! ### Lookups -/

namespace Record

open Pattern RenderError

theorem resolve_pointed {p q : Text} (h : Pointed p q) (document : Json) :
    resolve document q = resolve document p := by
  rw [resolve, resolve, h.segments_eq]

theorem get_pointed {p q : Text} (h : Pointed p q) (data : Bytes) :
    Alike SameVariant Eq (get data p) (get data q) := by
  unfold get
  split
  · exact .error rfl
  · next document _ =>
    rw [resolve_pointed h]
    split
    · split
      · exact .error rfl
      · exact .ok rfl
    · exact .error rfl

end Record

namespace Scope

open Pattern RenderError

/-- Through any scopes a path finds the same with its arrows written as points: its first name,
which the scopes compare, has none, and a remainder is looked up in the element. -/
theorem through_pointed {scopes : List Scope} (hscopes : ∀ s ∈ scopes, s.HasPlainNames)
    (data : Bytes) {p q : Text} (hp : IsPath p) (h : Pointed p q) :
    Alike SameVariant Eq (through scopes Record.get data p)
      (through scopes Record.get data q) := by
  obtain ⟨name, steps, rfl, hn, hs, -⟩ := hp.split
  obtain ⟨steps', rfl, hsteps⟩ := Pointed.name_inv (Bool.and_eq_true_iff.mp hn).2 h
  have hc := hs.isContinuation
  have hc' := hsteps.isContinuation hc
  induction scopes with
  | nil => exact Record.get_pointed h data
  | cons s outer ih =>
    have hplain := hscopes s List.mem_cons_self
    have hout := ih fun t ht => hscopes t (List.mem_cons_of_mem s ht)
    have hindex : s.index = some (name ++ steps') ↔ s.index = some (name ++ steps) := by
      constructor
      · intro hi
        rwa [hsteps.nil_iff.mp (hplain.index_bare hn hc' hi),
          ← hplain.index_bare hn hc' hi]
      · intro hi
        rwa [hsteps.nil_iff.mpr (hplain.index_bare hn hc hi),
          ← hplain.index_bare hn hc hi]
    unfold through at hout ⊢
    rw [route_path hscopes data hn hc, route_path hscopes data hn hc']
    simp only [hindex, hsteps.nil_iff]
    by_cases hi : s.index = some (name ++ steps)
    · simp only [if_pos hi]
      exact .ok rfl
    · by_cases hitem : name = s.item
      · simp only [if_neg hi, if_pos hitem]
        by_cases hempty : steps = []
        · by_cases hk : s.kind = .missing
          · simp only [if_pos hempty, if_pos hk]
            exact .error rfl
          · simp only [if_pos hempty, if_neg hk]
            exact .ok rfl
        · by_cases hk : isContainer s.kind = true
          · simp only [if_neg hempty, if_pos hk]
            exact Record.get_pointed hsteps s.element
          · simp only [if_neg hempty, if_neg hk]
            exact .error rfl
      · simp only [if_neg hi, if_neg hitem]
        exact hout

end Scope

/-! ### The laws of patterns -/

namespace Pattern

open Record RenderError

/-- Patterns compose: cut before an arrow, a point or a bracket, a pattern has the segments of its
two parts, and the second part is resolved in what the first one resolves to. With any of its arrows
written as points it has the same segments and resolves to the same value, and through any loops it
finds the same, or nothing as well. And the item of a loop is stripped of exactly the paths whose
first segment it is, which leaves the other segments. -/
theorem patterns_compose :
    (∀ p rest, isContinuation rest = true →
      segments (p ++ rest) = segments p ++ segments rest ∧
        ∀ document, resolve document (p ++ rest) =
          (resolve document p).bind fun value => resolve value rest) ∧
    (∀ p q, Pointed p q →
      segments q = segments p ∧ (∀ document, resolve document q = resolve document p) ∧
        (IsWritten p → ∀ scopes : List Scope, (∀ s ∈ scopes, s.HasPlainNames) → ∀ data,
          Alike SameVariant Eq (Scope.through scopes get data p)
            (Scope.through scopes get data q))) ∧
    ∀ p item, IsWritten p → Token.isPlainName item = true →
      ((afterItem? p item).isSome = true ↔ (segments p).head? = some item) ∧
        ∀ rest, afterItem? p item = some rest → segments p = item :: segments rest := by
  refine ⟨fun p rest hrest => ?_, fun p q h => ?_, fun p item hp hi => ?_⟩
  · exact ⟨segments_append hrest p, resolve_append hrest⟩
  · exact ⟨h.segments_eq, resolve_pointed h,
      fun hp scopes hscopes data => Scope.through_pointed hscopes data hp.isPath h⟩
  · exact hp.isPath.afterItem?_iff hi

/-- A cut after a bracket that is not closed and a dash, one of two arrows written as a point, and
an item with an index after it. -/
theorem patterns_compose_loose_dash :
    let document : Json := .object [(['a'], .object [("[-".toList, .object [(['b'], .null)])])]
    (isContinuation "->b".toList = true ∧
      segments "a[-->b".toList = [['a'], "[-".toList, ['b']] ∧
        resolve document "a[-->b".toList = some .null) ∧
    (Pointed "a->[-->b".toList "a->[-.b".toList ∧
      resolve document "a->[-.b".toList = some .null) ∧
    IsWritten "x[1].y".toList ∧ afterItem? "x[1].y".toList ['x'] = some "[1].y".toList ∧
      segments "x[1].y".toList = ['x'] :: segments "[1].y".toList := by
  intro document
  obtain ⟨hcut, hpointed, hitem⟩ := patterns_compose
  have hwritten : IsWritten "x[1].y".toList :=
    ⟨"x[1].y".toList, 1, _, rfl, _, List.mem_singleton_self _, rfl⟩
  have hp : Pointed "a->[-->b".toList "a->[-.b".toList :=
    .keep 'a' (.keep '-' (.keep '>' (.keep '[' (.keep '-' (.point (.keep 'b' .nil))))))
  refine ⟨⟨rfl, ?_, ?_⟩, ⟨hp, ?_⟩, hwritten, rfl, ?_⟩
  · exact (hcut "a[-".toList "->b".toList rfl).1
  · exact (hcut "a[-".toList "->b".toList rfl).2 document
  · exact (hpointed _ _ hp).2.1 document
  · exact (hitem _ ['x'] hwritten rfl).2 _ rfl

end Pattern

end MailMerge
