import MailMerge.Proofs.ItemRenaming
import MailMerge.Proofs.RewrittenSources

/-!
# The source of a loop whose item is renamed

Every loop of a template has a source of its own inside of that of the template, and can be
replaced there by another loop. In the source of its body the item is renamed block by block, with a
stack that tells for each open loop what it leaves visible of the item: what comes out is the source
of the body with the item renamed.
-/

namespace MailMerge

/-! ### Where a loop stands -/

/-- A chain that something stands in is not empty. -/
theorem Outline.Place.fill_ne_done (p : Place) {o : Outline} (ho : o ≠ .done) :
    p.fill o ≠ .done := by
  cases p with
  | here => exact ho
  | _ => exact nofun

namespace Balanced

/-- Blocks with a loop among them, where another loop can stand in its place: what they derive then
is `derived` of that loop. -/
def Holds (h : Header) (body : Outline) (derived : Header → Outline → Outline)
    (ps : List Piece) : Prop :=
  ∃ xs ys zs, ps = xs ++ .statement (.for_ h) :: (ys ++ .statement .end_ :: zs) ∧
    Balanced ys body ∧ ∀ {h' ys' body'}, Balanced ys' body' →
      Balanced (xs ++ .statement (.for_ h') :: (ys' ++ .statement .end_ :: zs)) (derived h' body')

/-- What holds a loop still does among further blocks. -/
theorem Holds.within {h : Header} {body : Outline} {derived : Header → Outline → Outline}
    {ps qs : List Piece} (hp : Holds h body derived ps) (around : Outline → Outline)
    (front back : List Piece) (hq : qs = front ++ (ps ++ back))
    (hb : ∀ {us o}, Balanced us o → Balanced (front ++ (us ++ back)) (around o)) :
    Holds h body (fun h b => around (derived h b)) qs := by
  obtain ⟨xs, ys, zs, rfl, hy, hall⟩ := hp
  refine ⟨front ++ xs, ys, zs ++ back, by simp [hq], hy, fun hy' => ?_⟩
  simpa using hb (hall hy')

/-- Wherever a loop stands in the outline of blocks, it stands among the blocks. -/
theorem holds_loop {h : Header} {body next : Outline} {place : Outline.Place} {ps : List Piece}
    (hb : Balanced ps (place.fill (.loop h body next))) :
    Holds h body (fun h b => place.fill (.loop h b next)) ps := by
  induction place generalizing ps with
  | here =>
    cases hb with
    | @for_ ys zs _ _ _ hy hz => exact ⟨[], ys, zs, rfl, hy, fun hy' => .for_ _ hy' hz⟩
  | afterText t p ih =>
    cases hb with
    | text _ hb =>
      exact (ih hb).within (.text t) [.text t] [] (by simp) fun h => by simpa using h.text t
  | afterEmit e p ih =>
    cases hb with
    | emit _ hb =>
      exact (ih hb).within (.emit e) [.statement (.emit e)] [] (by simp)
        fun h => by simpa using h.emit e
  | inYes c p no rest ih =>
    cases hb with
    | @if_ _ us _ _ _ hb hu =>
      exact (ih hb).within (.branch c · .done rest) [.statement (.if_ c)] (.statement .end_ :: us)
        rfl fun h => .if_ c h hu
    | @ifElse _ vs us _ _ _ _ hb hv hu =>
      exact (ih hb).within (.branch c · no rest) [.statement (.if_ c)]
        (.statement .else_ :: (vs ++ .statement .end_ :: us)) rfl fun h => .ifElse c h hv hu
  | inNo c yes p rest ih =>
    change Balanced ps (.branch c yes (p.fill (.loop h body next)) rest) at hb
    generalize hno : p.fill (.loop h body next) = no at hb
    cases hb with
    | if_ => exact absurd hno (p.fill_ne_done nofun)
    | @ifElse us _ vs _ _ _ _ hu hb hv =>
      subst hno
      exact (ih hb).within (.branch c yes · rest)
        (.statement (.if_ c) :: (us ++ [.statement .else_])) (.statement .end_ :: vs) (by simp)
        fun h => by simpa using Balanced.ifElse c hu h hv
  | afterBranch c yes no p ih =>
    cases hb with
    | @if_ us _ _ _ _ hu hb =>
      exact (ih hb).within (.branch c yes .done)
        (.statement (.if_ c) :: (us ++ [.statement .end_])) [] (by simp)
        fun h => by simpa using Balanced.if_ c hu h
    | @ifElse us vs _ _ _ _ _ hu hv hb =>
      exact (ih hb).within (.branch c yes no) (.statement (.if_ c) :: (us ++ .statement .else_ ::
        (vs ++ [.statement .end_]))) [] (by simp) fun h => by simpa using Balanced.ifElse c hu hv h
  | inLoop hd p rest ih =>
    cases hb with
    | @for_ _ us _ _ _ hb hu =>
      exact (ih hb).within (.loop hd · rest) [.statement (.for_ hd)] (.statement .end_ :: us) rfl
        fun h => .for_ hd h hu
  | afterLoop hd inner p ih =>
    cases hb with
    | @for_ us _ _ _ _ hu hb =>
      exact (ih hb).within (.loop hd inner) (.statement (.for_ hd) :: (us ++ [.statement .end_])) []
        (by simp) fun h => by simpa using Balanced.for_ hd hu h

end Balanced

namespace Template

/-- Every loop of a template has a source of its own inside of that of the template, with a template
for its body; and any other loop can be written there. -/
theorem exists_loopSource {source : Text} {t : Template} (ht : parse source = .ok t)
    {place : Outline.Place} {h : Header} {body next : Outline}
    (hl : t.outline = place.fill (.loop h body next)) :
    ∃ before header inner ending rest,
      source = before ++ (loopSource header inner ending ++ rest) ∧
      Statement.parse header 1 = .ok (.for_ h) ∧ parse inner = .ok (ofOutline body) ∧
      ∀ {header' inner' : Text} {h' : Header} {b : Template}, marker ∉ header' →
        Statement.parse header' 1 = .ok (.for_ h') → parse inner' = .ok b →
        parse (before ++ (loopSource header' inner' ending ++ rest)) =
          .ok (ofOutline (place.fill (.loop h' b.outline next))) := by
  obtain ⟨ps, o, hs, hb, rfl⟩ := parse_eq_ok_iff.mp ht
  rw [outline_ofOutline] at hl
  subst hl
  obtain ⟨xs, ys, zs, rfl, hy, hall⟩ := hb.holds_loop
  obtain ⟨vs, header, ws, hpieces, hv, hh, hw⟩ := hs.exists_around rfl
  obtain ⟨us, ending, rs, rfl, hu, he, hr⟩ := hw.exists_around rfl
  have hplain : ∀ p ∈ vs ++ header :: (us ++ ending :: rs), marker ∉ p :=
    fun p hp => Text.not_mem_of_mem_pieces (hpieces ▸ hp)
  obtain ⟨before, rfl⟩ := hv.exists_text fun p hp => hplain p (by simp [hp])
  obtain ⟨inner, rfl⟩ := hu.exists_text fun p hp => hplain p (by simp [hp])
  obtain ⟨rest, rfl⟩ := hr.exists_text fun p hp => hplain p (by simp [hp])
  have hm : marker ∉ header := hplain header (by simp)
  have hm' : marker ∉ ending := hplain ending (by simp)
  refine ⟨before, header, inner, ending, rest, ?_, Piece.read_statement_iff.mp hh,
    parse_eq_ok_iff.mpr ⟨ys, body, hu, hy, rfl⟩, fun {header' inner' h' b} hm₂ hh₂ hb₂ => ?_⟩
  · rw [← Text.join_pieces marker source, hpieces, ← pieces_loopSource hm hm', Text.join_pieces]
  · obtain ⟨ys', o', hs', hb', rfl⟩ := parse_eq_ok_iff.mp hb₂
    rw [outline_ofOutline]
    refine parse_eq_ok_iff.mpr ⟨_, _, ?_, hall hb', rfl⟩
    rw [pieces_loopSource hm₂ hm']
    exact hv.around (Piece.read_statement_iff.mpr hh₂) (hs'.around he hr)

end Template

/-! ### Renaming the item in a source -/

/-- What is visible of the item behind a block, for each open block, the innermost one first. -/
def Sight.step (x : Text) : List Sight → Piece → List Sight
  | v :: vs, .statement (.for_ h) => v.within x h.item h.index :: v :: vs
  | v :: vs, .statement (.if_ _) => v :: v :: vs
  | _ :: vs, .statement .end_ => vs
  | vs, _ => vs

/-- The rewriting that puts `y` for the item `x` in the patterns that mean it. -/
def Rewriting.ofItem (x y : Text) : Rewriting (List Sight) where
  replace vs := (vs.headD .nothing).rename x y
  step := Sight.step x
  step_text vs _ := by cases vs <;> rfl

open Rewriting (ofItem blocks blocks_append)

namespace Balanced

variable {x y : Text} {ps : List Piece} {o : Outline}

/-- Behind balanced blocks as much is visible of the item as before them. -/
theorem sight_behind (h : Balanced ps o) (v : Sight) (vs : List Sight) :
    ps.foldl (Sight.step x) (v :: vs) = v :: vs := by
  induction h generalizing v vs with
  | nil => rfl
  | text t _ ih => exact ih v vs
  | emit e _ ih => exact ih v vs
  | if_ c _ _ ihy ih =>
    rw [List.foldl_cons, List.foldl_append, Sight.step, ihy]
    exact ih v vs
  | ifElse c _ _ _ ihy ihz ih =>
    have helse : Sight.step x (v :: v :: vs) (.statement .else_) = v :: v :: vs := rfl
    rw [List.foldl_cons, List.foldl_append, Sight.step, ihy, List.foldl_cons, List.foldl_append,
      helse, ihz]
    exact ih v vs
  | for_ hd _ _ ihb ih =>
    rw [List.foldl_cons, List.foldl_append, Sight.step, ihb]
    exact ih v vs

theorem blocks_behind (h : Balanced ps o) (v : Sight) (vs : List Sight) (rest : List Piece) :
    (ofItem x y).blocks (v :: vs) (ps ++ rest) =
      (ofItem x y).blocks (v :: vs) ps ++ (ofItem x y).blocks (v :: vs) rest := by
  rw [blocks_append]
  exact congrArg (_ ++ (ofItem x y).blocks · rest) (h.sight_behind v vs)

/-- Balanced blocks with the item renamed, whatever else is open around them. -/
theorem renameItem (h : Balanced ps o) (v : Sight) (vs : List Sight) :
    Balanced ((ofItem x y).blocks (v :: vs) ps) (o.renameItem x y v) := by
  induction h generalizing v vs with
  | nil => exact .nil
  | text t _ ih => exact .text t (ih v vs)
  | emit e _ ih => exact .emit _ (ih v vs)
  | @if_ c us ps yes _ hu _ ihy ih =>
    change Balanced (_ :: (ofItem x y).blocks (v :: v :: vs) _) _
    rw [hu.blocks_behind]
    exact .if_ _ (ihy v (v :: vs)) (ih v vs)
  | ifElse c hu hz _ ihy ihz ih =>
    change Balanced (_ :: (ofItem x y).blocks (v :: v :: vs) _) _
    rw [hu.blocks_behind]
    change Balanced (_ :: (_ ++ _ :: (ofItem x y).blocks (v :: v :: vs) _)) _
    rw [hz.blocks_behind]
    exact .ifElse _ (ihy v (v :: vs)) (ihz v (v :: vs)) (ih v vs)
  | for_ hd hb _ ihb ih =>
    change Balanced (_ :: (ofItem x y).blocks (v.within x hd.item hd.index :: v :: vs) _) _
    rw [hb.blocks_behind]
    exact .for_ _ (ihb _ (v :: vs)) (ih v vs)

end Balanced

namespace Template

/-- A template with `y` for the item `x` in the patterns that mean it is the template with the item
renamed. -/
theorem parse_ofItem {x y : Text} {v : Sight} {source source' : Text} {t : Template}
    (ht : parse source = .ok t) (hr : (ofItem x y).Rewrites [v] source source') :
    parse source' = .ok (ofOutline (t.outline.renameItem x y v)) := by
  obtain ⟨ps, o, hs, hb, rfl⟩ := parse_eq_ok_iff.mp ht
  rw [outline_ofOutline]
  exact parse_eq_ok_iff.mpr ⟨_, _, hr.spells hs, hb.renameItem v [], rfl⟩

/-- A loop further in hides the item from its own body, but not from its target. -/
example : (ofItem "x".toList "y".toList).Rewrites [.all] "$x.c$: $for x in x.b$$x$$end$".toList
    "$y.c$: $for x in y.b$$x$$end$".toList := by
  refine ⟨_, _, _, rfl, rfl, ?_⟩
  refine .expression (by decide) ⟨_, _, rfl, rfl, rfl⟩ ?_
  refine .expression (by decide) ⟨_, _, rfl, rfl, rfl⟩ ?_
  refine .expression (by decide) ⟨_, _, rfl, rfl, rfl⟩ ?_
  exact .expression (by decide) ⟨_, _, rfl, rfl, rfl⟩ (.nil _)

/-- A loop of a template whose item gets a fresh name: the source with the new name in the header
and, for the item, in those patterns of the body that mean it is a template, and it renders every
record to the same text with the same calls, or both fail with errors of the same variant. -/
theorem renamed_source_agrees {σ : Type} {source : Text} {t : Template}
    (ht : parse source = .ok t) {place : Outline.Place} {h : Header} {body next : Outline}
    (hloop : t.outline = place.fill (.loop h body next)) {y : Text} (hy : Outline.Fresh y h body) :
    ∃ before header inner ending rest,
      source = before ++ (loopSource header inner ending ++ rest) ∧
      Statement.parse header 1 = .ok (.for_ h) ∧ parse inner = .ok (ofOutline body) ∧
      ∀ {header' inner' : Text}, marker ∉ header' →
        Statement.parse header' 1 = .ok (.for_ ⟨y, h.index, h.target⟩) →
        (ofItem h.item y).Rewrites [Sight.all.besideIndex h.item h.index] inner inner' →
        ∃ u, parse (before ++ (loopSource header' inner' ending ++ rest)) = .ok u ∧
          u.outline = place.fill (Outline.loopOver y h body next) ∧
          ∀ (record : Bytes) (host : Option (Host σ)),
            Eval.Agree RenderError.SameVariant Eq (t.render (.ofRecord record host))
              (u.render (.ofRecord record host)) := by
  obtain ⟨before, header, inner, ending, rest, hsource, hh, hb, hall⟩ :=
    exists_loopSource ht hloop
  refine ⟨before, header, inner, ending, rest, hsource, hh, hb, fun hm hh' hr => ?_⟩
  have hu := hall hm hh' (parse_ofItem hb hr)
  rw [outline_ofOutline, outline_ofOutline] at hu
  refine ⟨_, hu, outline_ofOutline _, fun record host => ?_⟩
  have hw := wellFormed_of_parse ht
  rw [hloop] at hw
  rw [render, render, hloop, outline_ofOutline]
  exact Outline.Place.loopOver_agree hw hy (List.forall_mem_nil _)

end Template

end MailMerge
