import MailMerge.Proofs.MacroTables

/-!
# Macros that are defined again

A definition of a known name replaces its value and keeps its place, and macros are applied in the
order of their places. So of two definitions of a name with only definitions between them the value
of the first one never counts, but its place does: without it the name comes behind the names that
are new between it and the next definition. The expansion stays as it is exactly if every line below
is rewritten to the same text in both orders.
-/

namespace MailMerge

/-- Texts are equal up to their first line feeds and behind them if they are equal. -/
theorem Text.break_inj {k m r s : Text} (hk : '\n' ∉ k) (hm : '\n' ∉ m) :
    k ++ '\n' :: r = m ++ '\n' :: s ↔ k = m ∧ r = s := by
  constructor
  · intro h
    induction k generalizing m with
    | nil =>
      cases m with
      | nil => exact ⟨rfl, (List.cons.inj h).2⟩
      | cons c m => exact absurd ((List.cons.inj h).1 ▸ List.mem_cons_self) hm
    | cons c k ih =>
      cases m with
      | nil => exact absurd ((List.cons.inj h).1 ▸ List.mem_cons_self) hk
      | cons d m =>
        obtain ⟨rfl, htail⟩ := List.cons.inj h
        rw [List.mem_cons, not_or] at hk hm
        obtain ⟨rfl, rfl⟩ := ih hk.2 hm.2 htail
        exact ⟨rfl, rfl⟩
  · rintro ⟨rfl, rfl⟩
    rfl

namespace Macros

/-! ### Places in a table -/

/-- The uses of a table in the order of their places. -/
def uses (table : Table) : List Text := table.map Prod.fst

section Define

variable {use u value v w : Text} {a b table : Table}

theorem define_head (use v w : Text) (r : Table) :
    define use v ((use, w) :: r) = (use, v) :: r := by
  rw [define, if_pos rfl]

theorem define_cons_of_ne (h : u ≠ use) (v w : Text) (r : Table) :
    define use v ((u, w) :: r) = (u, w) :: define use v r := by
  rw [define, if_neg h]

theorem define_append_of_mem (h : use ∈ uses a) (v : Text) (b : Table) :
    define use v (a ++ b) = define use v a ++ b := by
  induction a with
  | nil => cases h
  | cons m a ih =>
    obtain ⟨u, w⟩ := m
    by_cases hu : u = use
    · subst hu
      rw [List.cons_append, define_head, define_head]
      rfl
    · have h : use ∈ uses a := (List.mem_cons.mp h).resolve_left (Ne.symm hu)
      rw [List.cons_append, define_cons_of_ne hu, define_cons_of_ne hu, ih h]
      rfl

theorem define_append_of_not_mem (h : use ∉ uses a) (v : Text) (b : Table) :
    define use v (a ++ b) = a ++ define use v b := by
  induction a with
  | nil => rfl
  | cons m a ih =>
    obtain ⟨u, w⟩ := m
    rw [uses, List.map_cons, List.mem_cons, not_or] at h
    rw [List.cons_append, define_cons_of_ne (Ne.symm h.1), ih h.2]
    rfl

/-- A new use comes last. -/
theorem define_of_not_mem (h : use ∉ uses a) (v : Text) : define use v a = a ++ [(use, v)] := by
  have := define_append_of_not_mem h v []
  rwa [List.append_nil] at this

/-- A known use keeps its place. -/
theorem uses_define_of_mem (h : use ∈ uses a) (v : Text) : uses (define use v a) = uses a := by
  induction a with
  | nil => cases h
  | cons m a ih =>
    obtain ⟨u, w⟩ := m
    by_cases hu : u = use
    · subst hu
      rw [define_head]
      rfl
    · have h : use ∈ uses a := (List.mem_cons.mp h).resolve_left (Ne.symm hu)
      rw [define_cons_of_ne hu, uses, List.map_cons, ← uses, ih h]
      rfl

theorem not_mem_uses_define (hne : u ≠ use) (h : use ∉ uses a) (v : Text) :
    use ∉ uses (define u v a) := by
  intro huse
  obtain ⟨m, hm, hmu⟩ := List.mem_map.mp huse
  rcases mem_define hm with rfl | hm
  · exact hne hmu
  · exact h (hmu ▸ List.mem_map_of_mem hm)

theorem mem_uses_define (h : use ∈ uses a) (u v : Text) : use ∈ uses (define u v a) := by
  by_cases hu : u ∈ uses a
  · rwa [uses_define_of_mem hu]
  · rw [define_of_not_mem hu, uses, List.map_append]
    exact List.mem_append_left _ h

/-- Only the latest value counts. -/
theorem define_define (use v w : Text) (table : Table) :
    define use v (define use w table) = define use v table := by
  induction table with
  | nil => rw [define, define_head, define]
  | cons m table ih =>
    obtain ⟨u, x⟩ := m
    by_cases hu : u = use
    · subst hu
      rw [define_head, define_head, define_head]
    · rw [define_cons_of_ne hu, define_cons_of_ne hu, define_cons_of_ne hu, ih]

/-- Definitions of two uses can change places if one of them is known. -/
theorem define_comm (h : use ∈ uses table) (hne : u ≠ use) (v w : Text) :
    define u v (define use w table) = define use w (define u v table) := by
  induction table with
  | nil => cases h
  | cons m table ih =>
    obtain ⟨x, y⟩ := m
    by_cases hx : x = use
    · subst hx
      rw [define_head, define_cons_of_ne (Ne.symm hne), define_cons_of_ne (Ne.symm hne),
        define_head]
    · have h : use ∈ uses table := (List.mem_cons.mp h).resolve_left (Ne.symm hx)
      rw [define_cons_of_ne hx]
      by_cases hxu : x = u
      · subst hxu
        rw [define_head, define_head, define_cons_of_ne hx]
      · rw [define_cons_of_ne hxu, define_cons_of_ne hxu, define_cons_of_ne hx, ih h]

end Define

/-! ### A place behind others -/

/-- Two tables with the same entries in the same order but for one: `use` stands right before the
uses `others` in the first table, and right behind them in the second one. -/
inductive Delays (use : Text) : List Text → Table → Table → Prop where
  | intro {older newer : Table} (ho : use ∉ uses older) (hn : use ∉ uses newer) (value : Text)
      (later : Table) : Delays use (uses newer) (older ++ (use, value) :: (newer ++ later))
        (older ++ (newer ++ (use, value) :: later))

namespace Delays

variable {use : Text} {others : List Text} {table table' : Table}

/-- Behind no other one it stands where it stood. -/
theorem eq_of_nil (h : Delays use [] table table') : table = table' := by
  generalize ho : ([] : List Text) = others at h
  cases h with
  | intro _ _ value later =>
    rw [List.map_eq_nil_iff.mp ho.symm]
    rfl

theorem refl (h : use ∈ uses table) : Delays use [] table table := by
  obtain ⟨before, after, huses, hbefore⟩ := List.eq_append_cons_of_mem h
  obtain ⟨older, r, rfl, rfl, hr⟩ := List.map_eq_append_iff.mp huses
  obtain ⟨⟨u, value⟩, later, rfl, rfl, -⟩ := List.map_eq_cons_iff.mp hr
  have hnone : u ∉ uses [] := List.not_mem_nil
  exact Delays.intro hbefore hnone value later

/-- A definition leaves both tables like that. -/
theorem define (h : Delays use others table table') (u v : Text) :
    Delays use others (define u v table) (define u v table') := by
  cases h with
  | @intro older newer ho hn value later =>
    by_cases hu : u ∈ uses older
    · rw [define_append_of_mem hu, define_append_of_mem hu]
      refine .intro ?_ hn value later
      rwa [uses_define_of_mem hu]
    · rw [define_append_of_not_mem hu, define_append_of_not_mem hu]
      by_cases he : use = u
      · subst he
        rw [define_head, define_append_of_not_mem hn, define_head]
        exact .intro ho hn v later
      · rw [define_cons_of_ne he]
        by_cases hnew : u ∈ uses newer
        · rw [define_append_of_mem hnew, define_append_of_mem hnew]
          have hn' : use ∉ uses (Macros.define u v newer) := by rwa [uses_define_of_mem hnew]
          have := Delays.intro ho hn' value later
          rwa [uses_define_of_mem hnew] at this
        · rw [define_append_of_not_mem hnew, define_append_of_not_mem hnew, define_cons_of_ne he]
          exact .intro ho hn value _

/-- And so do lines. -/
theorem learned (h : Delays use others table table') (ls : List Text) :
    Delays use others (learned table ls) (learned table' ls) := by
  induction ls generalizing table table' with
  | nil => exact h
  | cons l ls ih =>
    have hl : Delays use others (learnLine table l) (learnLine table' l) := by
      unfold learnLine
      split
      · exact h.define _ _
      · exact h
    exact ih hl

end Delays

/-! ### A definition that is left out -/

/-- Whether a line defines a name. -/
def defines (name line : Text) : Bool := (named? line).any (·.1 = name)

theorem learnLine_of_defines {name line : Text} (h : defines name line = true) :
    ∃ value, ∀ table, learnLine table line = define (useOf name) value table := by
  unfold defines at h
  cases hnamed : named? line with
  | none =>
    rw [hnamed] at h
    cases h
  | some m =>
    obtain ⟨n, value⟩ := m
    rw [hnamed] at h
    obtain rfl : n = name := of_decide_eq_true h
    exact ⟨value, fun table => learnLine_of_named hnamed⟩

theorem useOf_inj {m n : Text} (h : useOf m = useOf n) : m = n := by
  have htail := (List.cons.inj h).2
  exact List.append_cancel_right htail

/-- A line that does not define a name defines another one or none. -/
theorem learnLine_of_not_defines {name line : Text} (h : defines name line = false) :
    (∀ table, learnLine table line = table) ∨
      ∃ u value, u ≠ useOf name ∧ ∀ table, learnLine table line = define u value table := by
  cases hnamed : named? line with
  | none => exact .inl fun table => by rw [learnLine, hnamed]
  | some m =>
    obtain ⟨n, value⟩ := m
    refine .inr ⟨useOf n, value, fun hu => ?_, fun table => learnLine_of_named hnamed⟩
    rw [defines, hnamed, useOf_inj hu] at h
    simp at h

variable {name : Text} {table : Table} {between : List Text} {second : Text}

/-- The value that a known name has before it is defined again makes no difference. -/
theorem learned_of_known (h : useOf name ∈ uses table) (value : Text) {ls : List Text}
    (hls : ∃ l ∈ ls, defines name l = true) :
    learned (define (useOf name) value table) ls = learned table ls := by
  induction ls generalizing table with
  | nil => simp at hls
  | cons l ls ih =>
    rw [learned, learned, List.foldl_cons, List.foldl_cons]
    by_cases hl : defines name l = true
    · obtain ⟨v, hv⟩ := learnLine_of_defines hl
      rw [hv, hv, define_define]
    · have hls : ∃ l ∈ ls, defines name l = true := by simpa [hl] using hls
      rcases learnLine_of_not_defines (Bool.eq_false_iff.mpr hl) with hsame | ⟨u, v, hne, hu⟩
      · rw [hsame, hsame]
        exact ih h hls
      · rw [hu, hu, define_comm h hne]
        exact ih (mem_uses_define h u v) hls

/-- Lines that do not define a name leave it where it is, and bring new uses in behind it. -/
theorem learned_around {older newer : Table} (ho : useOf name ∉ uses older)
    (hn : useOf name ∉ uses newer) (value : Text) {ls : List Text}
    (h : ∀ l ∈ ls, defines name l = false) :
    ∃ older' newer' : Table, older'.length = older.length ∧ useOf name ∉ uses older' ∧
      useOf name ∉ uses newer' ∧ learned (older ++ newer) ls = older' ++ newer' ∧
      learned (older ++ (useOf name, value) :: newer) ls =
        older' ++ (useOf name, value) :: newer' := by
  induction ls generalizing older newer with
  | nil => exact ⟨older, newer, rfl, ho, hn, rfl, rfl⟩
  | cons l ls ih =>
    obtain ⟨hl, hls⟩ := List.forall_mem_cons.mp h
    rw [learned, learned, List.foldl_cons, List.foldl_cons]
    rcases learnLine_of_not_defines hl with hsame | ⟨u, v, hne, hu⟩
    · rw [hsame, hsame]
      exact ih ho hn hls
    · rw [hu, hu]
      by_cases hmem : u ∈ uses older
      · have ho' : useOf name ∉ uses (define u v older) := by rwa [uses_define_of_mem hmem]
        obtain ⟨older', newer', hlen, hrest⟩ := ih ho' hn hls
        have hsame : (define u v older).length = older.length := by
          have := congrArg List.length (uses_define_of_mem hmem v)
          simpa [uses] using this
        rw [define_append_of_mem hmem, define_append_of_mem hmem]
        exact ⟨older', newer', hlen.trans hsame, hrest⟩
      · rw [define_append_of_not_mem hmem, define_append_of_not_mem hmem,
          define_cons_of_ne (Ne.symm hne)]
        exact ih ho (not_mem_uses_define hne hn v) hls

/-- The uses that come before a name if a definition before the lines `ls` is left out: none if the
name is known, and otherwise those that are new before the name is defined. -/
def overtaking (name : Text) (table : Table) (ls : List Text) : List Text :=
  if useOf name ∈ uses table then []
  else uses ((learned table (ls.takeWhile fun l => !defines name l)).drop table.length)

theorem mem_uses_learned {use : Text} (h : use ∈ uses table) (ls : List Text) :
    use ∈ uses (learned table ls) := by
  induction ls generalizing table with
  | nil => exact h
  | cons l ls ih =>
    have hl : use ∈ uses (learnLine table l) := by
      unfold learnLine
      split
      · exact mem_uses_define h _ _
      · exact h
    exact ih hl

/-- Without a definition before lines that define the name the table is the same, but that the name
stands behind those that are new before it is defined. -/
theorem delays_learned (table : Table) (value : Text) {ls : List Text}
    (hls : ∃ l ∈ ls, defines name l = true) :
    Delays (useOf name) (overtaking name table ls)
      (learned (define (useOf name) value table) ls) (learned table ls) := by
  unfold overtaking
  split
  · next h =>
    rw [learned_of_known h value hls]
    exact .refl (mem_uses_learned h ls)
  · next h =>
    have hcut := List.takeWhile_append_dropWhile (p := fun l => !defines name l) (l := ls)
    have hfirst : ∀ l ∈ ls.takeWhile (fun l => !defines name l), defines name l = false :=
      fun l hl => by simpa using List.mem_takeWhile_imp hl
    obtain ⟨l, b, hrest, hl⟩ : ∃ l b, ls.dropWhile (fun l => !defines name l) = l :: b ∧
        defines name l = true := by
      obtain ⟨l, hl, hdef⟩ := hls
      cases hrest : ls.dropWhile (fun l => !defines name l) with
      | nil => simpa [hdef] using List.dropWhile_eq_nil_iff.mp hrest l hl
      | cons l b =>
        have hhead := List.head?_dropWhile_not (fun l => !defines name l) ls
        rw [hrest] at hhead
        exact ⟨l, b, rfl, by simpa using hhead⟩
    generalize ls.takeWhile (fun l => !defines name l) = a at hcut hfirst ⊢
    -- the name is defined last by then, and before that those that are new
    have hnone : useOf name ∉ uses [] := List.not_mem_nil
    obtain ⟨older, newer, hlen, ho, hn, hwithout, hwith⟩ := learned_around h hnone value hfirst
    obtain ⟨v, hv⟩ := learnLine_of_defines hl
    rw [List.append_nil] at hwithout
    rw [← hcut, hrest, define_of_not_mem h, learned_append, learned_append, hwith, hwithout,
      learned, learned, List.foldl_cons, List.foldl_cons, hv, hv, define_append_of_not_mem ho,
      define_head, define_append_of_not_mem ho, define_of_not_mem hn, ← hlen, List.drop_left]
    have := Delays.intro ho hn v []
    rw [List.append_nil] at this
    exact this.learned b

/-! ### Lines below -/

/-- Lines expand to the same text under two tables exactly if each of them does, where it is not a
definition. -/
theorem expandLines_eq_iff {table table' : Table} (ht : OnLines table) (ht' : OnLines table')
    {ls : List Text} (h : Text.AreLines ls) :
    expandLines table' ls = expandLines table ls ↔
      ∀ a line b, ls = a ++ line :: b → definition? line = none →
        apply (learned table' a) line = apply (learned table a) line := by
  induction ls generalizing table table' with
  | nil => exact iff_of_true rfl fun a line b hab => by simp at hab
  | cons l ls ih =>
    have htail := Text.AreLines.behind (a := [l]) h
    have hcontent := not_mem_content h l List.mem_cons_self
    -- a line is the first one or one of the others
    have hcons : (∀ a line b, l :: ls = a ++ line :: b → definition? line = none →
          apply (learned table' a) line = apply (learned table a) line) ↔
        (definition? l = none → apply table' l = apply table l) ∧
          ∀ a line b, ls = a ++ line :: b → definition? line = none →
            apply (learned (learnLine table' l) a) line =
              apply (learned (learnLine table l) a) line := by
      constructor
      · intro hall
        exact ⟨hall [] l ls rfl, fun a line b hab => hall (l :: a) line b (congrArg (l :: ·) hab)⟩
      · rintro ⟨hl, hls⟩ a line b hab
        cases a with
        | nil =>
          obtain ⟨rfl, rfl⟩ := List.cons.inj hab
          exact hl
        | cons x a =>
          obtain ⟨rfl, hls'⟩ := List.cons.inj hab
          exact hls a line b hls'
    rw [hcons, ← ih (ht.learnLine hcontent) (ht'.learnLine hcontent) htail]
    cases hd : definition? l with
    | some d =>
      rw [expandLines_definition hd, expandLines_definition hd]
      simp
    | none =>
      rw [expandLines_plain hd, expandLines_plain hd, learnLine_of_plain hd, learnLine_of_plain hd]
      simp only [forall_const]
      cases h with
      | last _ _ => simp [expandLines]
      | @cons k _ hk _ =>
        rw [apply_break ht, apply_break ht', List.append_assoc, List.append_assoc,
          List.singleton_append, List.singleton_append,
          Text.break_inj (not_mem_apply ht' hk) (not_mem_apply ht hk), List.append_cancel_right_eq]

/-- What definitions in the middle do shows in the lines below them. -/
theorem expandLines_above_below {above ds below : List Text}
    (hds : ∀ l ∈ ds, (definition? l).isSome) :
    expandLines [] (above ++ (ds ++ below)) =
      expandLines [] above ++ expandLines (learned [] (above ++ ds)) below := by
  rw [expandLines_append, expandLines_append, expandLines_definitions hds, List.nil_append,
    learned_append]

/-- Other definitions in the middle give the same text exactly if every line below is rewritten to
the same text. -/
theorem expandLines_replace_iff {above ds ds' below : List Text}
    (h : Text.AreLines (above ++ (ds ++ below))) (h' : Text.AreLines (above ++ (ds' ++ below)))
    (hds : ∀ l ∈ ds, (definition? l).isSome) (hds' : ∀ l ∈ ds', (definition? l).isSome) :
    expandLines [] (above ++ (ds' ++ below)) = expandLines [] (above ++ (ds ++ below)) ↔
      ∀ a line b, below = a ++ line :: b → definition? line = none →
        apply (learned [] (above ++ (ds' ++ a))) line =
          apply (learned [] (above ++ (ds ++ a))) line := by
  have htable : ∀ {es : List Text}, Text.AreLines (above ++ (es ++ below)) →
      OnLines (learned [] (above ++ es)) := by
    intro es hes
    refine OnLines.nil.learned fun l hl => not_mem_content hes l ?_
    rw [← List.append_assoc]
    exact List.mem_append_left below hl
  rw [expandLines_above_below hds, expandLines_above_below hds', List.append_cancel_left_eq,
    expandLines_eq_iff (htable h) (htable h') h.behind.behind]
  simp only [← learned_append, List.append_assoc]

/-! ### The first of two definitions -/

theorem isSome_of_named? {line : Text} {m : Text × Text} (h : named? line = some m) :
    (definition? line).isSome := by
  obtain ⟨d, hd, -⟩ := Option.bind_eq_some_iff.mp h
  rw [hd]
  rfl

theorem defines_of_named? {line name value : Text} (h : named? line = some (name, value)) :
    defines name line = true := by
  rw [defines, h]
  exact decide_eq_true rfl

/-- Only what stands before the next definition of the name matters. -/
theorem overtaking_append {name second : Text} (h : defines name second = true) (table : Table)
    (between ls : List Text) :
    overtaking name table (between ++ second :: ls) = overtaking name table between := by
  have htake : (between ++ second :: ls).takeWhile (fun l => !defines name l) =
      between.takeWhile fun l => !defines name l := by
    induction between with
    | nil => simp [h]
    | cons l between ih => rw [List.cons_append, List.takeWhile_cons, List.takeWhile_cons, ih]
  rw [overtaking, overtaking, htake]

/-- Of two lines that define the same name, with only definitions between them, the first one is
left out. In the tables below only the place of the name changes: it comes behind the names that are
new between the line and the next definition, if it is not known already. So the expansion stays the
same if there are none, and in general exactly if every line below is rewritten to the same text by
both tables. -/
theorem expand_without_first {source name v₁ v₂ first second : Text}
    {above between below : List Text}
    (hlines : source.lines = above ++ first :: (between ++ second :: below))
    (hfirst : named? first = some (name, v₁)) (hsecond : named? second = some (name, v₂))
    (hbetween : ∀ l ∈ between, (definition? l).isSome) :
    let kept : Text := (above ++ (between ++ second :: below)).flatten
    let table : List Text → Table := fun ls =>
      learned [] (above ++ first :: (between ++ second :: ls))
    let table' : List Text → Table := fun ls => learned [] (above ++ (between ++ second :: ls))
    let others := overtaking name (learned [] above) between
    (∀ ls, Delays (useOf name) others (table ls) (table' ls)) ∧
      (others = [] → expand kept = expand source) ∧
      (expand kept = expand source ↔ ∀ a line b, below = a ++ line :: b →
        definition? line = none → apply (table' a) line = apply (table a) line) := by
  intro kept table table' others
  have hdefines := defines_of_named? hsecond
  -- without the first line the name is defined later, if it is not known
  have hdelays : ∀ ls, Delays (useOf name) others (table ls) (table' ls) := by
    intro ls
    have htable : table ls = learned (define (useOf name) v₁ (learned [] above))
        (between ++ second :: ls) := by
      rw [← learnLine_of_named hfirst]
      exact learned_append [] above _
    have htable' : table' ls = learned (learned [] above) (between ++ second :: ls) :=
      learned_append [] above _
    have hothers : others = overtaking name (learned [] above) (between ++ second :: ls) :=
      (overtaking_append hdefines _ between ls).symm
    rw [htable, htable', hothers]
    exact delays_learned _ v₁ ⟨second, by simp, hdefines⟩
  have hiff : expand kept = expand source ↔ ∀ a line b, below = a ++ line :: b →
      definition? line = none → apply (table' a) line = apply (table a) line := by
    have hall := Text.areLines_lines source
    rw [hlines] at hall
    have hkept : Text.lines kept = above ++ (between ++ second :: below) :=
      hall.erase.lines_flatten
    have hds' : ∀ l ∈ between ++ [second], (definition? l).isSome := by
      intro l hl
      rcases List.mem_append.mp hl with hl | hl
      · exact hbetween l hl
      · rw [List.mem_singleton.mp hl]
        exact isSome_of_named? hsecond
    have hds : ∀ l ∈ first :: (between ++ [second]), (definition? l).isSome :=
      List.forall_mem_cons.mpr ⟨isSome_of_named? hfirst, hds'⟩
    have hlines₁ : Text.AreLines (above ++ (first :: (between ++ [second]) ++ below)) := by
      simpa using hall
    have hlines₂ : Text.AreLines (above ++ (between ++ [second] ++ below)) := by
      simpa using hall.erase
    rw [expand, expand, hkept, hlines]
    simpa only [List.cons_append, List.append_assoc, List.nil_append, table, table'] using
      expandLines_replace_iff hlines₁ hlines₂ hds hds'
  refine ⟨hdelays, fun hnone => hiff.mpr fun a line b _ _ => ?_, hiff⟩
  have hsame := hdelays a
  rw [hnone] at hsame
  rw [hsame.eq_of_nil]

/-- A new name between both definitions comes first without the first one, which makes no difference
to lines in which both are used apart. -/
theorem expand_without_first_letter :
    let source := "$$$ a x\n$$$ b y\n$$$ a z\n$a$ and $b$\n".toList
    let first := "$$$ a x\n".toList
    let between := ["$$$ b y\n".toList]
    let second := "$$$ a z\n".toList
    let below := ["$a$ and $b$\n".toList]
    (Text.lines source = [] ++ first :: (between ++ second :: below) ∧
        named? first = some (['a'], ['x']) ∧ named? second = some (['a'], ['z']) ∧
        ∀ l ∈ between, (definition? l).isSome) ∧
      overtaking ['a'] [] between = [useOf ['b']] ∧
      expand ([] ++ (between ++ second :: below)).flatten = expand source := by
  intro source first between second below
  have hlines : Text.lines source = [] ++ first :: (between ++ second :: below) := by decide
  have hfirst : named? first = some (['a'], ['x']) := by decide
  have hsecond : named? second = some (['a'], ['z']) := by decide
  have hbetween : ∀ l ∈ between, (definition? l).isSome := by decide
  obtain ⟨-, -, hiff⟩ := expand_without_first hlines hfirst hsecond hbetween
  refine ⟨⟨hlines, hfirst, hsecond, hbetween⟩, by decide, hiff.mpr ?_⟩
  intro a line b hab _
  rcases List.cons_eq_append_iff.mp hab with ⟨rfl, hl⟩ | ⟨a, rfl, hl⟩
  · obtain ⟨rfl, -⟩ := List.cons.inj hl
    decide
  · simp at hl

/-- If the value of such a name uses the other one, the first definition decides whether that use is
replaced, too. -/
theorem first_definition_counts :
    ¬ ∀ (source name v₁ v₂ first second : Text) (above between below : List Text),
      source.lines = above ++ first :: (between ++ second :: below) →
      named? first = some (name, v₁) → named? second = some (name, v₂) →
      (∀ l ∈ between, (definition? l).isSome) →
      expand (above ++ (between ++ second :: below)).flatten = expand source := by
  intro h
  have hsame := h "$$$ a x\n$$$ b $a$\n$$$ a y\n$b$".toList ['a'] ['x'] ['y'] "$$$ a x\n".toList
    "$$$ a y\n".toList [] ["$$$ b $a$\n".toList] ["$b$".toList] (by decide) (by decide)
    (by decide) (by decide)
  have hwith : expand "$$$ a x\n$$$ b $a$\n$$$ a y\n$b$".toList = "$a$".toList := by decide
  have hwithout : expand (List.flatten ([] ++ (["$$$ b $a$\n".toList] ++
      "$$$ a y\n".toList :: ["$b$".toList]))) = ['y'] := by decide
  rw [hwith, hwithout] at hsame
  exact absurd hsame (by decide)

end Macros
end MailMerge
