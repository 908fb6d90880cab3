import MailMerge.Proofs.ItemPaths

/-!
# Renaming the item of a loop

The name of a loop's item is bound in its body: with a fresh name for it, there and in every pattern
that means it, a template renders as before. Loops further in may hide the item, an item of the same
name with everything in it, an index of the same name only as a bare word; `Sight` is what they
leave visible of it, and the scopes of the two renderings differ in a single item name.
-/

namespace MailMerge

/-! ### What is visible of an item -/

/-- What can be seen of the item of a loop at a place in its body. -/
inductive Sight where
  /-- The item and everything in it. -/
  | all
  /-- What is in the item, but not the item itself: an index has its name. -/
  | inside
  /-- Nothing: another item has its name. -/
  | nothing

namespace Sight

/-- Whether a pattern that begins with the item `x` means it. -/
def sees (x : Text) : Sight → Text → Bool
  | .all, _ => true
  | .inside, p => p ≠ x
  | .nothing, _ => false

/-- What an index leaves visible. -/
def besideIndex (x : Text) (index : Option Text) : Sight → Sight
  | .all => if index = some x then .inside else .all
  | v => v

/-- What a loop with these names leaves visible in its body. -/
def within (x item : Text) (index : Option Text) (v : Sight) : Sight :=
  if item = x then .nothing else v.besideIndex x index

/-- The pattern with `y` for the item `x`, if it means the item. -/
def rename (x y : Text) (v : Sight) (p : Text) : Text :=
  if v.sees x p then Pattern.replaceHead x y p else p

variable {x y name steps : Text} {index : Option Text} {v : Sight}

/-- An index hides the pattern that is its name and no other one. -/
theorem sees_besideIndex {p : Text} (hp : index = some p → p = x) :
    (v.besideIndex x index).sees x p = true ↔ v.sees x p = true ∧ index ≠ some p := by
  cases v with
  | all =>
    by_cases hx : index = some x
    · subst hx
      have hne : p ≠ x ↔ some x ≠ some p := by rw [ne_comm, Ne, Ne, Option.some_inj]
      simpa [besideIndex, sees] using hne
    · have hne : index ≠ some p := fun h => hx (hp h ▸ h)
      simp [besideIndex, sees, hx, hne]
  | inside =>
    have himp : p ≠ x → index ≠ some p := fun hne h => hne (hp h)
    simpa [besideIndex, sees] using himp
  | nothing => simp [besideIndex, sees]

/-- A pattern that does not mean the item stays as it is. -/
theorem rename_unseen {p : Text} (hv : v.sees x p ≠ true) : v.rename x y p = p := if_neg hv

theorem rename_seen (hn : Token.isPlainName x = true) (hs : Pattern.isContinuation steps = true)
    (hv : v.sees x (x ++ steps) = true) : v.rename x y (x ++ steps) = y ++ steps := by
  rw [rename, if_pos hv, Pattern.replaceHead_path hn hs, if_pos rfl]

/-- A path that does not begin with the item stays as it is. -/
theorem rename_of_ne (hn : Token.isPlainName name = true)
    (hs : Pattern.isContinuation steps = true) (hx : name ≠ x) :
    v.rename x y (name ++ steps) = name ++ steps := by
  rw [rename, Pattern.replaceHead_path hn hs, if_neg hx, ite_self]

end Sight

/-! ### The scopes of the two renderings -/

namespace Scope

variable {x y name steps : Text}

/-- What a scope makes of its item with steps after it. -/
def atItem (s : Scope) (root : Getter) (pattern steps : Text) : Except RenderError (Text × Kind) :=
  if steps = [] then
    if s.kind = .missing then .error (.notExists pattern)
    else .ok (Utf8.decodeLossy s.element, s.kind)
  else if isContainer s.kind then root s.element steps
  else .error (.notExists pattern)

/-- How an item is written in a pattern makes no difference to what is found. -/
theorem atItem_alike (s : Scope) (root : Getter) (p q steps : Text) :
    Alike RenderError.SameVariant Eq (s.atItem root p steps) (s.atItem root q steps) := by
  unfold atItem
  split_ifs
  · exact .error rfl
  · exact .ok rfl
  · exact .refl RenderError.SameVariant.refl _
  · exact .error rfl

/-- What a stack of scopes makes of a path, by what its innermost scope binds. -/
theorem through_path {s : Scope} {outer : List Scope} (h : ∀ t ∈ s :: outer, t.HasPlainNames)
    (root : Getter) (data : Bytes) (hn : Token.isPlainName name = true)
    (hs : Pattern.isContinuation steps = true) :
    through (s :: outer) root data (name ++ steps) =
      if s.index = some (name ++ steps) then .ok s.binding.describe
      else if name = s.item then s.atItem root (name ++ steps) steps
      else through outer root data (name ++ steps) := by
  unfold through atItem
  rw [route_path h data hn hs]
  split_ifs <;> rfl

/-- The scopes around a place in the body of a loop with the item `x`, and the same scopes with the
item called `y`, where so much is visible of the item. -/
inductive Renamed (x y : Text) : Sight → List Scope → List Scope → Prop where
  /-- The loop itself. -/
  | loop {s : Scope} (outer : List Scope) (hs : s.item = x) (hi : s.index ≠ some y) :
      Renamed x y (Sight.all.besideIndex x s.index) (s :: outer)
        (⟨y, s.index, s.element, s.kind, s.binding⟩ :: outer)
  /-- A loop in its body. -/
  | enter {v : Sight} {cs ds : List Scope} {t : Scope} (h : Renamed x y v cs ds)
      (ht : t.Avoids y) : Renamed x y (v.within x t.item t.index) (t :: cs) (t :: ds)

namespace Renamed

variable {v : Sight} {cs ds : List Scope}

theorem plain (h : Renamed x y v cs ds) (hy : Token.isPlainName y = true)
    (hc : ∀ t ∈ cs, t.HasPlainNames) : ∀ t ∈ ds, t.HasPlainNames := by
  induction h with
  | loop outer hs hi =>
    obtain ⟨hs, houter⟩ := List.forall_mem_cons.mp hc
    exact List.forall_mem_cons.mpr ⟨⟨hy, hs.index⟩, houter⟩
  | enter h ht ih =>
    obtain ⟨ht, hc⟩ := List.forall_mem_cons.mp hc
    exact List.forall_mem_cons.mpr ⟨ht, ih hc⟩

/-- A path finds under the scopes what it finds, renamed, under the renamed scopes. -/
theorem through_alike (h : Renamed x y v cs ds) (hy : Token.isPlainName y = true)
    (hc : ∀ t ∈ cs, t.HasPlainNames) (root : Getter) (data : Bytes)
    (hn : Token.isPlainName name = true) (hs : Pattern.isContinuation steps = true)
    (hne : name ≠ y) :
    Alike RenderError.SameVariant Eq (through cs root data (name ++ steps))
      (through ds root data (v.rename x y (name ++ steps))) := by
  have hrefl : ∀ r : Except RenderError (Text × Kind), Alike RenderError.SameVariant Eq r r :=
    .refl RenderError.SameVariant.refl
  have hd := h.plain hy hc
  induction h with
  | @loop s outer hitem hi =>
    subst hitem
    have hplain := hc s List.mem_cons_self
    rw [through_path hc root data hn hs]
    by_cases hname : name = s.item
    · subst hname
      have hbare : s.index = some (s.item ++ steps) → s.item ++ steps = s.item := fun h => by
        rw [hplain.index_bare hn hs h, List.append_nil]
      have hsees := Sight.sees_besideIndex (v := .all) hbare
      by_cases hx : s.index = some (s.item ++ steps)
      · -- the index of the loop is called like its item
        rw [Sight.rename_unseen fun h => (hsees.mp h).2 hx, through_path hd root data hn hs,
          if_pos hx, if_pos hx]
        exact hrefl _
      · have hy' : s.index ≠ some (y ++ steps) := fun h => by
          rw [hplain.index_bare hy hs h, List.append_nil] at h
          exact hi h
        rw [Sight.rename_seen hn hs (hsees.mpr ⟨rfl, hx⟩), through_path hd root data hy hs,
          if_neg hx, if_neg hy', if_pos rfl, if_pos rfl]
        exact atItem_alike s root _ _ steps
    · rw [Sight.rename_of_ne hn hs hname, through_path hd root data hn hs, if_neg hname, if_neg hne]
      exact hrefl _
  | @enter v cs ds t h ht ih =>
    have hplain := hc t List.mem_cons_self
    have hcs : ∀ u ∈ cs, u.HasPlainNames := fun u hu => hc u (List.mem_cons_of_mem t hu)
    have hrest := ih hcs (h.plain hy hcs)
    rw [through_path hc root data hn hs]
    by_cases hname : name = x
    · subst hname
      by_cases hitem : t.item = name
      · -- the item is hidden: both renderings look at the new scope
        rw [Sight.within, if_pos hitem, Sight.rename_unseen (v := .nothing) Bool.false_ne_true,
          through_path hd root data hn hs, if_pos hitem.symm, if_pos hitem.symm]
        exact hrefl _
      · have hbare : t.index = some (name ++ steps) → name ++ steps = name := fun h => by
          rw [hplain.index_bare hn hs h, List.append_nil]
        have hsees := Sight.sees_besideIndex (v := v) hbare
        rw [Sight.within, if_neg hitem]
        by_cases hx : t.index = some (name ++ steps)
        · -- the pattern is the new index
          rw [Sight.rename_unseen fun h => (hsees.mp h).2 hx, through_path hd root data hn hs,
            if_pos hx, if_pos hx]
          exact hrefl _
        · -- the pattern passes the new scope, whether it means the item or not
          rw [if_neg hx, if_neg (Ne.symm hitem)]
          by_cases hv : v.sees name (name ++ steps) = true
          · rw [Sight.rename_seen hn hs hv] at hrest
            rw [Sight.rename_seen hn hs (hsees.mpr ⟨hv, hx⟩), through_path hd root data hy hs,
              if_neg (ht.index_path hplain hy hs), if_neg (Ne.symm ht.item)]
            exact hrest
          · rw [Sight.rename_unseen hv] at hrest
            rw [Sight.rename_unseen fun h => hv (hsees.mp h).1, through_path hd root data hn hs,
              if_neg hx, if_neg (Ne.symm hitem)]
            exact hrest
    · rw [Sight.rename_of_ne hn hs hname] at hrest ⊢
      rw [through_path hd root data hn hs]
      split_ifs
      · exact hrefl _
      · exact hrefl _
      · exact hrest

end Renamed

end Scope

/-! ### The two bodies -/

namespace Outline

open Eval (Agree)

/-- The outline with `y` for the item `x` in the patterns that mean it. -/
def renameItem (x y : Text) : Outline → Sight → Outline
  | .done, _ => .done
  | .text t n, v => .text t (n.renameItem x y v)
  | .emit e n, v => .emit (e.mapPatterns (v.rename x y)) (n.renameItem x y v)
  | .branch c yes no n, v => .branch (c.mapPatterns (v.rename x y)) (yes.renameItem x y v)
      (no.renameItem x y v) (n.renameItem x y v)
  | .loop h b n, v => .loop ⟨h.item, h.index, v.rename x y h.target⟩
      (b.renameItem x y (v.within x h.item h.index)) (n.renameItem x y v)

/-- A loop and what follows it, with the item of the loop called `y`. -/
def loopOver (y : Text) (h : Header) (body next : Outline) : Outline :=
  .loop ⟨y, h.index, h.target⟩
    (body.renameItem h.item y (Sight.all.besideIndex h.item h.index)) next

/-- A name that can stand for the item of a loop: it is plain, no name of the loop's index or of a
loop in its body, and no pattern in the body begins with it. -/
structure Fresh (y : Text) (h : Header) (body : Outline) : Prop where
  plain : Token.isPlainName y = true
  index : h.index ≠ some y
  names : y ∉ body.names
  heads : ∀ p ∈ body.patterns, (Pattern.segments p).head? ≠ some y

end Outline

/-- Contexts at a place in the body of a loop, with its item called `x` and called `y`. -/
structure Context.Renamed {σ : Type} (c : Context σ) (x y : Text) (v : Sight) (d : Context σ) :
    Prop where
  host : c.host = d.host
  data : c.data = d.data
  root : c.root = d.root
  scopes : Scope.Renamed x y v c.scopes d.scopes
  plain : ∀ t ∈ c.scopes, t.HasPlainNames

namespace Outline

open Element (LookUpAlike text_agree)
open Eval (Agree)

variable {σ : Type} {x y : Text} {v : Sight} {c d : Context σ}

/-- The patterns of the body find the same, renamed where they mean the item. -/
theorem lookUpAlike_renamed (hc : c.Renamed x y v d) (hy : Token.isPlainName y = true)
    {ps : List Text} (hp : ∀ p ∈ ps, Pattern.IsWritten p ∧ (Pattern.segments p).head? ≠ some y) :
    LookUpAlike RenderError.SameVariant (v.rename x y) c d ps := by
  intro p hm
  obtain ⟨hw, hne⟩ := hp p hm
  obtain ⟨name, steps, rfl, hn, hs, hseg⟩ := hw.isPath.split
  refine Context.lookup_agree ?_
  rw [← hc.data, ← hc.root]
  refine hc.scopes.through_alike hy hc.plain c.root c.data hn hs.isContinuation fun he => hne ?_
  rw [hseg, he]
  rfl

/-- An outline and the one with the item renamed agree where the contexts differ in its name. -/
theorem renameItem_agree (hy : Token.isPlainName y = true) :
    ∀ {o : Outline},
      (∀ p ∈ o.patterns, Pattern.IsWritten p ∧ (Pattern.segments p).head? ≠ some y) →
      (∀ n ∈ o.names, Token.isPlainName n = true ∧ n ≠ y) →
      ∀ {v : Sight} {c d : Context σ}, c.Renamed x y v d →
        Agree RenderError.SameVariant Eq (o.render c) ((o.renameItem x y v).render d) := by
  intro o
  induction o with
  | done => exact fun _ _ _ _ _ _ => .pure rfl
  | text t n ih => exact fun hp hn _ _ _ hc => agree_text t (ih hp hn hc)
  | emit e n ih =>
    intro hp hn v c d hc
    have ht := Tolerance.sameVariant (v.rename x y)
    have he := lookUpAlike_renamed hc hy fun p hm => hp p (List.mem_append_left _ hm)
    exact agree_emit ((text_agree ht hc.host e he).mapError fun _ _ => ht.report e)
      (ih (fun p hm => hp p (List.mem_append_right _ hm)) hn hc)
  | branch b yes no n ihy ihz ihn =>
    intro hp hn v c d hc
    simp only [patterns, names, List.mem_append] at hp hn
    have hb := lookUpAlike_renamed hc hy fun p hm => hp p (.inl hm)
    exact agree_branch (b.holds_agree (Tolerance.sameVariant _) hc.host hb)
      (ihy (fun p hm => hp p (.inr (.inl hm))) (fun m hm => hn m (.inl hm)) hc)
      (ihz (fun p hm => hp p (.inr (.inr (.inl hm)))) (fun m hm => hn m (.inr (.inl hm))) hc)
      (ihn (fun p hm => hp p (.inr (.inr (.inr hm)))) (fun m hm => hn m (.inr (.inr hm))) hc)
  | loop h b n ihb ihn =>
    intro hp hn v c d hc
    simp only [patterns, names, List.mem_cons, List.mem_append] at hp hn
    have htarget : LookUpAlike RenderError.SameVariant (v.rename x y) c d [h.target] :=
      lookUpAlike_renamed hc hy fun p hm => hp p (.inl (List.mem_singleton.mp hm))
    refine agree_loop RenderError.SameVariant.refl (fun _ => rfl)
      (htarget _ (List.mem_singleton_self _)) ?_
      (ihn (fun p hm => hp p (.inr (.inr hm))) (fun m hm => hn m (.inr (.inr hm))) hc)
    intro s s' hs
    obtain ⟨hi, hx⟩ := hs.mem_names
    have hitem := hn _ (.inl hi)
    have hindex : ∀ i ∈ s.index, Token.isPlainName i = true ∧ i ≠ y := fun i hm =>
      hn i (.inl (hx i hm))
    have havoids : s.Avoids y := ⟨hitem.2, fun he => (hindex y he).2 rfl⟩
    obtain rfl := hs.eq rfl rfl
    rw [← hs.names.1, ← hs.names.2]
    exact ihb (fun p hm => hp p (.inr (.inl hm))) (fun m hm => hn m (.inr (.inl hm)))
      ⟨hc.host, hc.data, hc.root, .enter hc.scopes havoids,
        List.forall_mem_cons.mpr ⟨⟨hitem.1, fun i hm => (hindex i hm).1⟩, hc.plain⟩⟩

/-- A loop agrees with the loop whose item has a fresh name. -/
theorem loopOver_agree {h : Header} {body next : Outline}
    (hw : (Outline.loop h body next).WellFormed) (hy : Fresh y h body) {c : Context σ}
    (hc : ∀ t ∈ c.scopes, t.HasPlainNames) :
    Agree RenderError.SameVariant Eq ((Outline.loop h body next).render c)
      ((loopOver y h body next).render c) := by
  obtain ⟨hp, hn⟩ := hw
  simp only [patterns, names, List.mem_cons, List.mem_append] at hp hn
  have hE := RenderError.SameVariant.refl
  refine agree_loop hE (fun _ => rfl) (.refl hE (c.lookup h.target)) ?_ (.refl hE (next.render c))
  intro s s' hs
  obtain ⟨hi, hx⟩ := hs.mem_names
  have hplain : s.HasPlainNames := ⟨hn _ (.inl hi), fun i hm => hn i (.inl (hx i hm))⟩
  have hindex : s.index ≠ some y := hs.names.2 ▸ hy.index
  rw [hs.renamed, ← hs.names.1, ← hs.names.2]
  exact renameItem_agree hy.plain (fun p hm => ⟨hp p (.inr (.inl hm)), hy.heads p hm⟩)
    (fun m hm => ⟨hn m (.inr (.inl hm)), fun he => hy.names (he ▸ hm)⟩)
    ⟨rfl, rfl, rfl, .loop c.scopes rfl hindex, List.forall_mem_cons.mpr ⟨hplain, hc⟩⟩

/-! ### Anywhere in a template -/

/-- A place in an outline at which a chain of nodes stands. -/
inductive Place where
  | here
  | afterText (t : Text) (p : Place)
  | afterEmit (e : Element) (p : Place)
  | inYes (c : Condition) (p : Place) (no next : Outline)
  | inNo (c : Condition) (yes : Outline) (p : Place) (next : Outline)
  | afterBranch (c : Condition) (yes no : Outline) (p : Place)
  | inLoop (h : Header) (p : Place) (next : Outline)
  | afterLoop (h : Header) (body : Outline) (p : Place)

namespace Place

/-- The outline with a chain at the place. -/
def fill : Place → Outline → Outline
  | .here, o => o
  | .afterText t p, o => .text t (p.fill o)
  | .afterEmit e p, o => .emit e (p.fill o)
  | .inYes c p no next, o => .branch c (p.fill o) no next
  | .inNo c yes p next, o => .branch c yes (p.fill o) next
  | .afterBranch c yes no p, o => .branch c yes no (p.fill o)
  | .inLoop h p next, o => .loop h (p.fill o) next
  | .afterLoop h body p, o => .loop h body (p.fill o)

theorem patterns_fill (p : Place) (o : Outline) : o.patterns ⊆ (p.fill o).patterns := by
  intro q hq
  induction p with
  | here => exact hq
  | _ => simp_all [fill, patterns]

theorem names_fill (p : Place) (o : Outline) : o.names ⊆ (p.fill o).names := by
  intro m hm
  induction p with
  | here => exact hm
  | _ => simp_all [fill, names]

/-- Outlines that agree wherever the names of scopes are plain still do with the same nodes around
them. -/
theorem fill_agree {E : RenderError → RenderError → Prop} (hE : ∀ e, E e e) {a b : Outline}
    (hab : ∀ c : Context σ, (∀ t ∈ c.scopes, t.HasPlainNames) →
      Agree E Eq (a.render c) (b.render c)) :
    ∀ {p : Place}, (∀ n ∈ (p.fill a).names, Token.isPlainName n = true) → ∀ {c : Context σ},
      (∀ t ∈ c.scopes, t.HasPlainNames) →
        Agree E Eq ((p.fill a).render c) ((p.fill b).render c) := by
  intro p
  induction p with
  | here => exact fun _ _ hc => hab _ hc
  | afterText t p ih => exact fun hn _ hc => agree_text t (ih hn hc)
  | afterEmit e p ih => exact fun hn _ hc => agree_emit (.refl hE _) (ih hn hc)
  | inYes b p no next ih =>
    intro hn c hc
    simp only [fill, names, List.mem_append] at hn
    exact agree_branch (.refl hE _) (ih (fun m hm => hn m (.inl hm)) hc) (.refl hE _) (.refl hE _)
  | inNo b yes p next ih =>
    intro hn c hc
    simp only [fill, names, List.mem_append] at hn
    exact agree_branch (.refl hE _) (.refl hE _) (ih (fun m hm => hn m (.inr (.inl hm))) hc)
      (.refl hE _)
  | afterBranch b yes no p ih =>
    intro hn c hc
    simp only [fill, names, List.mem_append] at hn
    exact agree_branch (.refl hE _) (.refl hE _) (.refl hE _)
      (ih (fun m hm => hn m (.inr (.inr hm))) hc)
  | inLoop h p next ih =>
    intro hn c hc
    simp only [fill, names, List.mem_append] at hn
    refine agree_loop hE (fun _ => hE _) (.refl hE _) ?_ (.refl hE _)
    intro s s' hs
    obtain ⟨hi, hx⟩ := hs.mem_names
    have hplain : s.HasPlainNames := ⟨hn _ (.inl hi), fun i hm => hn i (.inl (hx i hm))⟩
    obtain rfl := hs.eq rfl rfl
    exact ih (fun m hm => hn m (.inr (.inl hm))) (List.forall_mem_cons.mpr ⟨hplain, hc⟩)
  | afterLoop h body p ih =>
    intro hn c hc
    simp only [fill, names, List.mem_append] at hn
    refine agree_loop hE (fun _ => hE _) (.refl hE _) ?_ (ih (fun m hm => hn m (.inr (.inr hm))) hc)
    intro s s' hs
    obtain rfl := hs.eq rfl rfl
    exact .refl hE _

/-- Wherever a loop stands, it agrees with the loop whose item has a fresh name. -/
theorem loopOver_agree {p : Place} {h : Header} {body next : Outline}
    (hw : (p.fill (.loop h body next)).WellFormed) {y : Text} (hy : Fresh y h body)
    {c : Context σ} (hc : ∀ t ∈ c.scopes, t.HasPlainNames) :
    Agree RenderError.SameVariant Eq ((p.fill (.loop h body next)).render c)
      ((p.fill (loopOver y h body next)).render c) := by
  have hl : (Outline.loop h body next).WellFormed :=
    ⟨fun q hq => hw.patterns q (p.patterns_fill _ hq), fun n hn => hw.names n (p.names_fill _ hn)⟩
  exact fill_agree RenderError.SameVariant.refl
    (fun _ hc => Outline.loopOver_agree hl hy hc) hw.names hc

end Place

end Outline

/-- In a template, the item of any loop may be called by a fresh name: with the name in the header
of the loop, and for the item in those patterns and loop targets of its body that mean it, the
template renders every record to the same text with the same calls, or both fail with errors of the
same variant. -/
theorem Template.render_rename_item {σ : Type} {source : Text} {t u : Template}
    (ht : parse source = .ok t) {place : Outline.Place} {h : Header} {body next : Outline}
    (hloop : t.outline = place.fill (.loop h body next)) {y : Text} (hy : Outline.Fresh y h body)
    (hu : u.outline = place.fill (Outline.loopOver y h body next)) (record : Bytes)
    (host : Option (Host σ)) :
    Eval.Agree RenderError.SameVariant Eq (t.render (.ofRecord record host))
      (u.render (.ofRecord record host)) := by
  have hw := wellFormed_of_parse ht
  rw [hloop] at hw
  rw [render, render, hloop, hu]
  exact Outline.Place.loopOver_agree hw hy nofun

/-- An item that an index and an item further in hide. -/
theorem Template.rename_hidden_item :
    let host : Host Nat := ⟨fun f as n => (.ok (.string (f ++ as.flatten)), n + 1)⟩
    let record := Utf8.encode "\x7b\"a\":[\x7b\"b\":[1,\"c\"],\"d\":2\x7d]\x7d".toList
    let old := "$if exists a$$for x, i in a$$x.d$".toList ++
      "$for z, x in x.b$$x$$f(x.d)$$end$$for x in x.b$$x$$end$$end$$end$".toList
    let new := "$if exists a$$for y, i in a$$y.d$".toList ++
      "$for z, x in y.b$$x$$f(y.d)$$end$$for x in y.b$$x$$end$$end$$end$".toList
    ∃ t u, parse old = .ok t ∧ parse new = .ok u ∧
      Eval.Agree RenderError.SameVariant Eq (t.render (.ofRecord record (some host)))
        (u.render (.ofRecord record (some host))) := by
  intro host record old new
  let access (p : String) : Element := .access p.toList
  let body : Outline := .emit (access "x.d") <|
    .loop ⟨"z".toList, some "x".toList, "x.b".toList⟩
      (.emit (access "x") (.emit (.call "f".toList [access "x.d"]) .done)) <|
    .loop ⟨"x".toList, none, "x.b".toList⟩ (.emit (access "x") .done) .done
  let header : Header := ⟨"x".toList, some "i".toList, "a".toList⟩
  let place : Outline.Place := .inYes (.present (access "a")) .here .done .done
  have hy : Outline.Fresh "y".toList header body := ⟨rfl, by decide, by decide, by decide⟩
  have ht : parse old = .ok (ofOutline (place.fill (.loop header body .done))) := rfl
  refine ⟨_, ofOutline (place.fill (Outline.loopOver "y".toList header body .done)), ht, rfl, ?_⟩
  exact render_rename_item ht (outline_ofOutline _) hy (outline_ofOutline _) record (some host)

end MailMerge
