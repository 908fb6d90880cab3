import Mathlib.Data.List.Induction
import MailMerge.Proofs.TemplateGrammar

/-!
# Blocks that are left open

Which blocks are open after some others does not depend on the nodes that are stored: `nest` tells
for one block what it does to the open ones, and a balanced sequence leaves them as they were. So
the builder takes a sequence of blocks exactly if it begins a balanced one, and where reading a
template fails one block is to blame: the first one with which the blocks begin no template, or the
innermost one that is left open at the end.
-/

namespace MailMerge.Template

/-! ### What a block does to the open ones -/

/-- The text and the line by which a block is reported. -/
abbrev Label : Type := Text × Nat

/-- An open block as it is reported: its kind and its label. -/
abbrev Mark : Type := Opening × Label

/-- What is reported of a block. -/
def label (k : Block) : Label := (k.text.trim, k.line)

/-- What is reported of an open block. -/
def Frame.mark (f : Frame) : Mark := (f.opening, f.text, f.line)

/-- The open blocks, the innermost one first. -/
def Builder.marks (b : Builder) : List Mark := b.frames.map Frame.mark

/-- The open blocks after one more, if it may stand there. -/
def nest (ms : List Mark) (l : Label) : Piece → Option (List Mark)
  | .text _ => some ms
  | .statement (.emit _) => some ms
  | .statement (.if_ _) => some ((.branch false, l) :: ms)
  | .statement (.for_ _) => some ((.loop, l) :: ms)
  | .statement .else_ =>
    match ms with
    | (.branch false, m) :: ms => some ((.branch true, m) :: ms)
    | _ => none
  | .statement .end_ =>
    match ms with
    | [] => none
    | _ :: ms => some ms

/-- The open blocks after some more. -/
def nests (ms : List Mark) : List (Label × Piece) → Option (List Mark)
  | [] => some ms
  | (l, p) :: xs => (nest ms l p).bind (nests · xs)

theorem nests_append (ms : List Mark) (xs ys : List (Label × Piece)) :
    nests ms (xs ++ ys) = (nests ms xs).bind (nests · ys) := by
  induction xs generalizing ms with
  | nil => rfl
  | cons x xs ih =>
    obtain ⟨l, p⟩ := x
    rw [List.cons_append, nests, nests]
    cases nest ms l p with
    | none => rfl
    | some ms' => exact ih ms'

namespace Builder

theorem marks_append (b : Builder) (content : Node.Content) :
    (b.append content).marks = b.marks := by
  obtain ⟨nodes, root, _ | ⟨f, fs⟩⟩ := b
  · rfl
  · rfl

theorem marks_enter (b : Builder) (content : Node.Content) (opening : Opening) (k : Block) :
    (b.enter content opening k).marks = (opening, label k) :: b.marks :=
  congrArg ((opening, label k) :: ·) (marks_append b content)

/-- A block is taken exactly if it may stand there, and the open blocks are then as `nest` says. -/
theorem marks_take (b : Builder) (k : Block) (p : Piece) :
    (b.take k p).toOption.map marks = nest b.marks (label k) p := by
  rcases p with t | (c | _ | _ | h | e)
  · exact congrArg some (marks_append b _)
  · exact congrArg some (marks_enter b _ _ k)
  · obtain ⟨nodes, root, _ | ⟨⟨node, (_ | _) | _, text, line, chain⟩, fs⟩⟩ := b
    · rfl
    · rfl
    · rfl
    · rfl
  · obtain ⟨nodes, root, _ | ⟨f, fs⟩⟩ := b
    · rfl
    · rfl
  · exact congrArg some (marks_enter b _ _ k)
  · exact congrArg some (marks_append b _)

/-- So are they after a sequence of blocks that can all be read. -/
theorem marks_run {ks : List Block} {ps : List Piece} (h : ks.map Piece.read = ps.map .ok)
    (b : Builder) :
    (b.run ks).toOption.map marks = nests b.marks ((ks.map label).zip ps) := by
  induction ks generalizing b ps with
  | nil =>
    rw [List.map_nil, List.nil_eq, List.map_eq_nil_iff] at h
    rw [h]
    rfl
  | cons k ks ih =>
    obtain ⟨p, ps, rfl, hk, hks⟩ := List.map_eq_cons_iff.1 h.symm
    have htake := marks_take b k p
    rw [List.map_cons, List.zip_cons_cons, nests, ← htake]
    cases hc : b.take k p with
    | error e =>
      rw [run, step, ← hk]
      change ((b.take k p >>= fun c => c.run ks).toOption).map marks = _
      rw [hc]
      rfl
    | ok c =>
      rw [run_cons hk.symm hc]
      exact ih hks.symm c

/-- The blocks that can be taken one after the other can all be read. -/
theorem read_of_run {ks : List Block} : ∀ {b c : Builder}, b.run ks = .ok c →
    ∃ ps : List Piece, ks.map Piece.read = ps.map .ok := by
  induction ks with
  | nil => exact fun _ => ⟨[], rfl⟩
  | cons k ks ih =>
    intro b c h
    obtain ⟨d, hd, hr⟩ := Parsing.ok_of_bind h
    obtain ⟨p, hp, -⟩ := Parsing.ok_of_bind hd
    obtain ⟨ps, hps⟩ := ih hr
    exact ⟨p :: ps, by rw [List.map_cons, hp, hps]; rfl⟩

end Builder

/-! ### Balanced sequences close what they open -/

/-- A labelled sequence with a given piece in it. -/
theorem labelled_split {xs : List (Label × Piece)} {ys ps : List Piece} {p : Piece}
    (h : xs.map Prod.snd = ys ++ p :: ps) :
    ∃ us l vs, xs = us ++ (l, p) :: vs ∧ us.map Prod.snd = ys ∧ vs.map Prod.snd = ps := by
  obtain ⟨us, ws, rfl, hu, hw⟩ := List.map_eq_append_iff.1 h
  obtain ⟨⟨l, q⟩, vs, rfl, rfl, hv⟩ := List.map_eq_cons_iff.1 hw
  exact ⟨us, l, vs, rfl, hu, hv⟩

/-- A balanced sequence leaves the open blocks as they were. -/
theorem nests_balanced {ps : List Piece} {o : Outline} (h : Balanced ps o) :
    ∀ {xs : List (Label × Piece)}, xs.map Prod.snd = ps → ∀ ms, nests ms xs = some ms := by
  induction h with
  | nil =>
    intro xs hx ms
    rw [List.map_eq_nil_iff.1 hx]
    rfl
  | text t _ ih =>
    intro xs hx ms
    obtain ⟨⟨l, p⟩, xs, rfl, rfl, hxs⟩ := List.map_eq_cons_iff.1 hx
    exact ih hxs ms
  | emit e _ ih =>
    intro xs hx ms
    obtain ⟨⟨l, p⟩, xs, rfl, rfl, hxs⟩ := List.map_eq_cons_iff.1 hx
    exact ih hxs ms
  | if_ c _ _ ihy ih =>
    intro xs hx ms
    obtain ⟨⟨l, p⟩, xs, rfl, rfl, hxs⟩ := List.map_eq_cons_iff.1 hx
    obtain ⟨us, m, vs, rfl, hu, hv⟩ := labelled_split hxs
    rw [nests, nest, Option.bind_some, nests_append, ihy hu]
    exact ih hv ms
  | ifElse c _ _ _ ihy ihz ih =>
    intro xs hx ms
    obtain ⟨⟨l, p⟩, xs, rfl, rfl, hxs⟩ := List.map_eq_cons_iff.1 hx
    obtain ⟨us, m, ws, rfl, hu, hw⟩ := labelled_split hxs
    obtain ⟨vs, n, ws, rfl, hv, hw⟩ := labelled_split hw
    rw [nests, nest, Option.bind_some, nests_append, ihy hu, Option.bind_some, nests, nest,
      Option.bind_some, nests_append, ihz hv]
    exact ih hw ms
  | for_ h _ _ ihb ih =>
    intro xs hx ms
    obtain ⟨⟨l, p⟩, xs, rfl, rfl, hxs⟩ := List.map_eq_cons_iff.1 hx
    obtain ⟨us, m, vs, rfl, hu, hv⟩ := labelled_split hxs
    rw [nests, nest, Option.bind_some, nests_append, ihb hu]
    exact ih hv ms

/-! ### What is left open -/

/-- A block is open, of the given kind, after the blocks that follow it, and none of them is. -/
inductive LeftOpen : Opening → Piece → List Piece → Prop where
  | if_ {ys : List Piece} {y : Outline} (c : Condition) (yes : Balanced ys y) :
      LeftOpen (.branch false) (.statement (.if_ c)) ys
  | else_ {ys zs : List Piece} {y z : Outline} (c : Condition) (yes : Balanced ys y)
      (no : Balanced zs z) :
      LeftOpen (.branch true) (.statement (.if_ c)) (ys ++ .statement .else_ :: zs)
  | for_ {ys : List Piece} {y : Outline} (h : Header) (body : Balanced ys y) :
      LeftOpen .loop (.statement (.for_ h)) ys

namespace LeftOpen

variable {opening : Opening} {p : Piece} {ps : List Piece}

/-- Only an expression is left open. -/
theorem statement (h : LeftOpen opening p ps) : ∃ s, p = .statement s := by
  cases h with
  | if_ c _ => exact ⟨_, rfl⟩
  | else_ c _ _ => exact ⟨_, rfl⟩
  | for_ h _ => exact ⟨_, rfl⟩

/-- More balanced blocks leave it open. -/
theorem append (h : LeftOpen opening p ps) {qs : List Piece} {o : Outline} (hq : Balanced qs o) :
    LeftOpen opening p (ps ++ qs) := by
  cases h with
  | if_ c yes => exact .if_ c (yes.append hq)
  | else_ c yes no =>
    rw [List.append_assoc, List.cons_append]
    exact .else_ c yes (no.append hq)
  | for_ h body => exact .for_ h (body.append hq)

/-- Its `end` makes it balanced. -/
theorem close (h : LeftOpen opening p ps) : ∃ o, Balanced (p :: (ps ++ [.statement .end_])) o := by
  cases h with
  | if_ c yes => exact ⟨_, .if_ c yes .nil⟩
  | else_ c yes no =>
    rw [List.append_assoc, List.cons_append]
    exact ⟨_, .ifElse c yes no .nil⟩
  | for_ h body => exact ⟨_, .for_ h body .nil⟩

/-- It is the innermost open block. -/
theorem nests_cons (h : LeftOpen opening p ps) {xs : List (Label × Piece)}
    (hx : xs.map Prod.snd = ps) (ms : List Mark) (l : Label) :
    nests ms ((l, p) :: xs) = some ((opening, l) :: ms) := by
  cases h with
  | if_ c yes => exact nests_balanced yes hx _
  | else_ c yes no =>
    obtain ⟨us, m, vs, rfl, hu, hv⟩ := labelled_split hx
    rw [nests, nest, Option.bind_some, nests_append, nests_balanced yes hu, Option.bind_some]
    exact nests_balanced no hv _
  | for_ h body => exact nests_balanced body hx _

end LeftOpen

/-- Blocks that leave some of them open, of the given kinds, the innermost one first. -/
inductive Leaves : List Opening → List Piece → Prop where
  | nil {ps : List Piece} {o : Outline} (h : Balanced ps o) : Leaves [] ps
  | cons {opening : Opening} {os : List Opening} {before after : List Piece} {p : Piece}
      (h : Leaves os before) (hp : LeftOpen opening p after) :
      Leaves (opening :: os) (before ++ p :: after)

namespace Leaves

variable {os : List Opening} {ps : List Piece}

/-- More balanced blocks belong to the innermost open one. -/
theorem append (h : Leaves os ps) {qs : List Piece} {o : Outline} (hq : Balanced qs o) :
    Leaves os (ps ++ qs) := by
  cases h with
  | nil hb => exact .nil (hb.append hq)
  | cons h hp =>
    rw [List.append_assoc, List.cons_append]
    exact .cons h (hp.append hq)

/-- An `end` closes the innermost open block. -/
theorem close {opening : Opening} (h : Leaves (opening :: os) ps) :
    Leaves os (ps ++ [.statement .end_]) := by
  cases h with
  | cons h hp =>
    obtain ⟨o, ho⟩ := hp.close
    rw [List.append_assoc]
    exact h.append ho

/-- As many `end`s as blocks are open make the blocks balanced. -/
theorem exists_balanced (h : Leaves os ps) : ∃ qs o, Balanced (ps ++ qs) o := by
  induction os generalizing ps with
  | nil =>
    cases h with
    | nil hb => exact ⟨[], _, by rwa [List.append_nil]⟩
  | cons opening os ih =>
    obtain ⟨qs, o, hq⟩ := ih h.close
    exact ⟨_, o, by rwa [List.append_assoc] at hq⟩

/-- One more block leaves open what `nest` says. -/
theorem nest {ms ns : List Mark} {l : Label} {p : Piece} (h : Leaves (ms.map Prod.fst) ps)
    (hn : nest ms l p = some ns) : Leaves (ns.map Prod.fst) (ps ++ [p]) := by
  rcases p with t | (c | _ | _ | hd | e)
  · cases hn
    exact h.append (.text t .nil)
  · cases hn
    exact .cons h (.if_ c .nil)
  · obtain _ | ⟨⟨(_ | _) | _, m⟩, ms⟩ := ms
    · cases hn
    · cases hn
      cases h with
      | cons h hp =>
        cases hp with
        | if_ c yes =>
          rw [List.append_assoc]
          exact .cons h (.else_ c yes .nil)
    · cases hn
    · cases hn
  · obtain _ | ⟨m, ms⟩ := ms
    · cases hn
    · cases hn
      exact h.close
  · cases hn
    exact .cons h (.for_ hd .nil)
  · cases hn
    exact h.append (.emit e .nil)

/-- And so do several. -/
theorem nests {ms ns : List Mark} {xs : List (Label × Piece)} (h : Leaves (ms.map Prod.fst) ps)
    (hn : nests ms xs = some ns) : Leaves (ns.map Prod.fst) (ps ++ xs.map Prod.snd) := by
  induction xs generalizing ms ps with
  | nil =>
    cases hn
    rwa [List.map_nil, List.append_nil]
  | cons x xs ih =>
    obtain ⟨ms', hx, hxs⟩ := Option.bind_eq_some_iff.1 hn
    have := ih (h.nest hx) hxs
    rwa [List.append_assoc] at this

end Leaves

/-! ### The block to blame -/

/-- Blocks that can be read and continued to a balanced sequence. -/
def Begins (ks : List Block) : Prop :=
  ∃ ps qs o, ks.map Piece.read = ps.map .ok ∧ Balanced (ps ++ qs) o

/-- The block `k`, between the blocks `before` and `after`, is the reason why they make up no
template. -/
inductive Blamed (before : List Block) (k : Block) (after : List Block) : Prop where
  /-- With it, the blocks no longer begin a template. -/
  | refused (hb : Begins before) (hk : ¬ Begins (before ++ [k]))
  /-- All blocks are fine, but it is open at the end, and no later one is. -/
  | leftOpen {opening : Opening} {p : Piece} {ps : List Piece} (hb : Begins (before ++ k :: after))
      (hp : Piece.read k = .ok p) (ha : after.map Piece.read = ps.map .ok)
      (ho : LeftOpen opening p ps)

theorem map_snd_zip_labels {ks : List Block} {ps : List Piece}
    (h : ks.map Piece.read = ps.map .ok) : ((ks.map label).zip ps).map Prod.snd = ps := by
  have hlength : ks.length = ps.length := by simpa using congrArg List.length h
  exact List.map_snd_zip (by rw [List.length_map]; exact Nat.le_of_eq hlength.symm)

namespace Builder

/-- The builder takes the blocks that begin a template. -/
theorem exists_run_of_begins {ks : List Block} (h : Begins ks) : ∃ c, start.run ks = .ok c := by
  obtain ⟨ps, qs, o, hk, hb⟩ := h
  have hmarks := marks_run hk start
  have hsnd : ((ks.map label).zip ps ++ qs.map (([], 0), ·)).map Prod.snd = ps ++ qs := by
    rw [List.map_append, map_snd_zip_labels hk, List.map_map]
    simp [Function.comp_def]
  have hnests := nests_balanced hb hsnd []
  rw [nests_append] at hnests
  obtain ⟨ms, hms, -⟩ := Option.bind_eq_some_iff.1 hnests
  rw [show start.marks = [] from rfl, hms] at hmarks
  cases hc : start.run ks with
  | ok c => exact ⟨c, rfl⟩
  | error e =>
    rw [hc] at hmarks
    cases hmarks

/-- What is left open by the blocks that the builder takes. -/
theorem leaves_of_run {ks : List Block} {c : Builder} (h : start.run ks = .ok c) :
    ∃ ps, ks.map Piece.read = ps.map .ok ∧ Leaves (c.marks.map Prod.fst) ps := by
  obtain ⟨ps, hk⟩ := read_of_run h
  have hmarks := marks_run hk start
  rw [h] at hmarks
  have hnil : Leaves (start.marks.map Prod.fst) [] := .nil .nil
  have hleaves := hnil.nests hmarks.symm
  rw [map_snd_zip_labels hk, List.nil_append] at hleaves
  exact ⟨ps, hk, hleaves⟩

theorem begins_of_run {ks : List Block} {c : Builder} (h : start.run ks = .ok c) :
    Begins ks := by
  obtain ⟨ps, hk, hl⟩ := leaves_of_run h
  obtain ⟨qs, o, hb⟩ := hl.exists_balanced
  exact ⟨ps, qs, o, hk, hb⟩

theorem run_append (b : Builder) (ks ls : List Block) :
    b.run (ks ++ ls) = (b.run ks >>= fun c => c.run ls) := by
  induction ks generalizing b with
  | nil => rfl
  | cons k ks ih =>
    rw [List.cons_append, run, run]
    cases b.step k with
    | error e => rfl
    | ok c => exact ih c

/-- Where the builder stops, some block is refused after others that are fine. -/
theorem exists_refused {ks : List Block} {e : TemplateError} (h : start.run ks = .error e) :
    ∃ before k after, ks = before ++ k :: after ∧ Blamed before k after := by
  induction ks using List.reverseRecOn with
  | nil => cases h
  | append_singleton ks k ih =>
    cases hc : start.run ks with
    | error e' =>
      rw [run_append, hc] at h
      obtain ⟨before, k', after, rfl, hb⟩ := ih (hc.trans h)
      cases hb with
      | refused hb hk =>
        exact ⟨before, k', after ++ [k], by rw [List.append_assoc, List.cons_append],
          .refused hb hk⟩
      | leftOpen hb =>
        obtain ⟨c, hr⟩ := exists_run_of_begins hb
        rw [hr] at hc
        cases hc
    | ok c =>
      refine ⟨ks, k, [], rfl, .refused (begins_of_run hc) fun hk => ?_⟩
      obtain ⟨d, hd⟩ := exists_run_of_begins hk
      rw [hd] at h
      cases h

/-- Where a block is open at the end, the innermost one is. -/
theorem exists_leftOpen {ks : List Block} {c : Builder} (h : start.run ks = .ok c)
    (hc : c.frames ≠ []) :
    ∃ before k after, ks = before ++ k :: after ∧ Blamed before k after := by
  obtain ⟨ps, hk, hl⟩ := leaves_of_run h
  obtain ⟨f, fs, hf⟩ := List.exists_cons_of_ne_nil hc
  rw [marks, hf, List.map_cons, List.map_cons] at hl
  generalize fs.map Frame.mark = ms at hl
  generalize hms : ms.map Prod.fst = os at hl
  cases hl with
  | cons _ ho =>
    obtain ⟨us, k, vs, rfl, -, hp, hv⟩ := read_split hk
    exact ⟨us, k, vs, rfl, .leftOpen (begins_of_run h) hp hv ho⟩

/-- The error about a block that is refused is found when it is taken. -/
theorem step_of_refused {before : List Block} {k : Block} (hb : Begins before)
    (hk : ¬ Begins (before ++ [k])) (after : List Block) :
    ∃ b e, start.run before = .ok b ∧ b.step k = .error e ∧
      start.run (before ++ k :: after) = .error e := by
  obtain ⟨b, hr⟩ := exists_run_of_begins hb
  cases hs : b.step k with
  | error e =>
    refine ⟨b, e, hr, hs, ?_⟩
    rw [run_append, hr]
    change (b.step k >>= fun c => c.run after) = _
    rw [hs]
    rfl
  | ok c =>
    refine absurd (begins_of_run (c := c) ?_) hk
    rw [run_append, hr]
    change (b.step k >>= fun c => c.run []) = _
    rw [hs]
    rfl

/-- The error about a block that is left open shows its text and its line. -/
theorem finish_of_leftOpen {before after : List Block} {k : Block} {opening : Opening} {p : Piece}
    {ps : List Piece} {c : Builder} (hr : start.run (before ++ k :: after) = .ok c)
    (hp : Piece.read k = .ok p) (ha : after.map Piece.read = ps.map .ok)
    (ho : LeftOpen opening p ps) : c.finish = .error ⟨.unclosedBlock k.text.trim, k.line⟩ := by
  rw [run_append] at hr
  obtain ⟨b, -, hr⟩ := Parsing.ok_of_bind hr
  have hmap : (k :: after).map Piece.read = (p :: ps).map .ok := by
    rw [List.map_cons, hp, ha]
    rfl
  have hmarks := marks_run hmap b
  rw [hr, List.map_cons, List.zip_cons_cons, ho.nests_cons (map_snd_zip_labels ha)] at hmarks
  obtain ⟨nodes, root, frames⟩ := c
  obtain ⟨f, fs, rfl, hf, -⟩ := List.map_eq_cons_iff.1 (Option.some.inj hmarks)
  obtain ⟨node, opening', text, line, chain⟩ := f
  cases hf
  rfl

end Builder

/-- Where reading the blocks of a template fails, one of them is to blame. -/
theorem exists_blamed {ks : List Block} {e : TemplateError}
    (h : (Builder.start.run ks >>= Builder.finish) = .error e) :
    ∃ before k after, ks = before ++ k :: after ∧ Blamed before k after := by
  cases hr : Builder.start.run ks with
  | error e' => exact Builder.exists_refused hr
  | ok c =>
    refine Builder.exists_leftOpen hr fun hc => ?_
    rw [hr] at h
    obtain ⟨nodes, root, frames⟩ := c
    cases hc
    cases h

/-- The error is about any block that is to blame. -/
theorem error_of_blamed {before after : List Block} {k : Block} {e : TemplateError}
    (h : (Builder.start.run (before ++ k :: after) >>= Builder.finish) = .error e)
    (hb : Blamed before k after) :
    (∃ b, Builder.start.run before = .ok b ∧ b.step k = .error e) ∨
      e = ⟨.unclosedBlock k.text.trim, k.line⟩ ∧ ∃ s, Piece.read k = .ok (.statement s) := by
  cases hb with
  | refused hb hk =>
    obtain ⟨b, e', hr, hs, hrun⟩ := Builder.step_of_refused hb hk after
    rw [hrun] at h
    cases h
    exact .inl ⟨b, hr, hs⟩
  | leftOpen hb hp ha ho =>
    obtain ⟨c, hr⟩ := Builder.exists_run_of_begins hb
    rw [hr] at h
    have hf := Builder.finish_of_leftOpen hr hp ha ho
    cases hf.symm.trans h
    obtain ⟨s, rfl⟩ := ho.statement
    exact .inr ⟨rfl, s, hp⟩

end MailMerge.Template
