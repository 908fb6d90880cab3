import MailMerge.Proofs.Balance
import MailMerge.Proofs.Chains

/-!
# The builder accepts the balanced templates

Two halves. A balanced sequence of blocks takes the builder from any state to the state `extend`
describes: the nodes of the outline stored behind the others in the form in which `layout` writes
them, linked to the innermost open chain, and every other frame as it was. And whatever the builder
accepts `Closes` the blocks that were open, so that from the empty state it is balanced.
-/

namespace MailMerge

/-! ### Stored chains -/

/-- The number of the last node of a chain whose nodes are counted from `k`. -/
def Outline.last (k : Nat) : Outline → Option Nat
  | .done => none
  | .text _ n => (n.last (k + 1)).or (some k)
  | .emit _ n => (n.last (k + 1)).or (some k)
  | .branch _ y z n => (n.last (k + 1 + y.size + z.size)).or (some k)
  | .loop _ b n => (n.last (k + 1 + b.size)).or (some k)

theorem Outline.head_of_ne {o : Outline} (h : o ≠ .done) (k : Nat) : o.head k = some k := by
  cases o with
  | done => exact absurd rfl h
  | _ => rfl

theorem Outline.last_or {o : Outline} (h : o ≠ .done) (k : Nat) (m : Option Nat) :
    (o.last k).or m = o.last k := by
  cases o with
  | done => exact absurd rfl h
  | _ => simp [last]

namespace Template

/-- A change of the node behind the given ones. -/
theorem modify_append_cons {α : Type} (f : α → α) (pre post : List α) (a : α) :
    (pre ++ a :: post).toArray.modify pre.length f = (pre ++ f a :: post).toArray := by
  rw [List.modify_toArray]
  congr 1
  induction pre with
  | nil => rfl
  | cons b pre ih => exact congrArg (b :: ·) ih

theorem size_link (nodes : Array Node) (tail : Option Nat) (id : Nat) :
    (link nodes tail id).size = nodes.size := by
  cases tail with
  | none => rfl
  | some i => exact Array.size_modify

/-- A link inside the stored nodes leaves the node behind them alone. -/
theorem link_push {nodes : Array Node} {tail : Option Nat} (id : Nat) (a : Node)
    (h : ∀ i, tail = some i → i < nodes.size) :
    link (nodes.push a) tail id = (link nodes tail id).push a := by
  cases tail with
  | none => rfl
  | some i =>
    have hi := h i rfl
    apply Array.ext
    · simp [link]
    · intro j hj hj'
      simp only [link, Array.getElem_modify, Array.getElem_push, Array.size_modify]
      grind

namespace Builder

/-! ### What a balanced sequence does -/

/-- The last node of the innermost open chain is stored. -/
def Linked (b : Builder) : Prop := ∀ i, b.current.tail = some i → i < b.nodes.size

/-- The stored nodes once the last one of the innermost open chain has a sibling. -/
def joined (b : Builder) : List Node := (link b.nodes b.current.tail b.nodes.size).toList

/-- Stores one more node of the innermost open chain, and nodes of its branches behind it. -/
def grow (b : Builder) (content : Node.Content) (inner : List Node) : Builder :=
  (⟨(b.joined ++ ⟨content, none⟩ :: inner).toArray, b.root, b.frames⟩ : Builder).setCurrent
    (b.current.add b.nodes.size)

/-- As `grow`, with the block of the new node still open. -/
def opened (b : Builder) (opening : Opening) (k : Block) (content : Node.Content)
    (inner : List Node) (chain : Chain) : Builder :=
  let c := b.grow content inner
  ⟨c.nodes, c.root, ⟨b.nodes.size, opening, k.text.trim, k.line, chain⟩ :: c.frames⟩

/-- Stores the nodes of an outline at the end of the innermost open chain. -/
def extend (b : Builder) : Outline → Builder
  | .done => b
  | o =>
    (⟨(b.joined ++ o.layout b.nodes.size).toArray, b.root, b.frames⟩ : Builder).setCurrent
      ⟨b.current.head.or (some b.nodes.size), o.last b.nodes.size⟩

section Lemmas

variable {b : Builder} {o : Outline}

theorem current_setCurrent (b : Builder) (c : Chain) : (b.setCurrent c).current = c := by
  obtain ⟨nodes, root, _ | ⟨f, fs⟩⟩ := b
  · rfl
  · rfl

theorem nodes_setCurrent (b : Builder) (c : Chain) : (b.setCurrent c).nodes = b.nodes := by
  obtain ⟨nodes, root, _ | ⟨f, fs⟩⟩ := b
  · rfl
  · rfl

theorem length_joined (b : Builder) : b.joined.length = b.nodes.size := by
  rw [joined, Array.length_toList, size_link]

theorem append_eq_grow (h : b.Linked) (content : Node.Content) :
    b.append content = b.grow content [] := by
  rw [append, grow, joined, link_push _ _ h]
  rw [← Array.toList_push, Array.toArray_toList]

theorem size_grow (b : Builder) (content : Node.Content) (inner : List Node) :
    (b.grow content inner).nodes.size = b.nodes.size + 1 + inner.length := by
  rw [grow, nodes_setCurrent]
  simp only [List.size_toArray, List.length_append, List.length_cons, length_joined]
  omega

theorem linked_grow (b : Builder) (content : Node.Content) (inner : List Node) :
    (b.grow content inner).Linked := by
  intro i hi
  rw [grow, current_setCurrent] at hi
  cases hi
  rw [size_grow]
  omega

theorem extend_of_ne (h : o ≠ .done) : b.extend o =
    (⟨(b.joined ++ o.layout b.nodes.size).toArray, b.root, b.frames⟩ : Builder).setCurrent
      ⟨b.current.head.or (some b.nodes.size), o.last b.nodes.size⟩ := by
  cases o with
  | done => exact absurd rfl h
  | _ => rfl

theorem setCurrent_setCurrent (b : Builder) (c d : Chain) (nodes : Array Node) :
    (⟨nodes, (b.setCurrent c).root, (b.setCurrent c).frames⟩ : Builder).setCurrent d =
      (⟨nodes, b.root, b.frames⟩ : Builder).setCurrent d := by
  obtain ⟨nodes', root, _ | ⟨f, fs⟩⟩ := b
  · rfl
  · rfl

/-- Linking the last node of a chain that has just grown. -/
theorem joined_grow (b : Builder) (content : Node.Content) (inner : List Node) :
    (b.grow content inner).joined =
      b.joined ++ ⟨content, some (b.nodes.size + 1 + inner.length)⟩ :: inner := by
  rw [joined, size_grow, grow, nodes_setCurrent, current_setCurrent]
  simp only [Chain.add, link]
  rw [← length_joined b, modify_append_cons]

/-- A chain that has grown by the first node of an outline grows on by the rest of it. -/
theorem extend_grow {content : Node.Content} {inner : List Node} {rest : Outline} (o : Outline)
    (ho : o ≠ .done)
    (hl : o.layout b.nodes.size =
      ⟨content, rest.head (b.nodes.size + 1 + inner.length)⟩ ::
        (inner ++ rest.layout (b.nodes.size + 1 + inner.length)))
    (ht : o.last b.nodes.size =
      (rest.last (b.nodes.size + 1 + inner.length)).or (some b.nodes.size)) :
    (b.grow content inner).extend rest = b.extend o := by
  rw [extend_of_ne ho, hl, ht]
  by_cases hr : rest = .done
  · rw [hr]
    simp [extend, grow, Outline.head, Outline.layout, Outline.last, Chain.add]
  · have hc : (b.current.add b.nodes.size).head.or (some (b.nodes.size + 1 + inner.length)) =
        b.current.head.or (some b.nodes.size) := by
      rw [Chain.add, Option.or_assoc]
      rfl
    rw [extend_of_ne hr, joined_grow, size_grow, Outline.head_of_ne hr, Outline.last_or hr]
    simp only [grow, current_setCurrent, setCurrent_setCurrent, hc, List.append_assoc,
      List.cons_append]

/-- More nodes behind those of a chain that has grown. -/
theorem grow_append (b : Builder) (content : Node.Content) (inner l : List Node) :
    b.grow content (inner ++ l) = ⟨((b.grow content inner).nodes.toList ++ l).toArray,
      (b.grow content inner).root, (b.grow content inner).frames⟩ := by
  obtain ⟨nodes, root, _ | ⟨f, fs⟩⟩ := b
  · simp [grow, setCurrent]
  · simp [grow, setCurrent]

/-- A change of the content of the node by which a chain has grown. -/
theorem grow_revise (b : Builder) (content : Node.Content) (inner : List Node)
    (f : Node.Content → Node.Content) :
    b.grow (f content) inner = ⟨revise (b.grow content inner).nodes b.nodes.size f,
      (b.grow content inner).root, (b.grow content inner).frames⟩ := by
  have hr : revise (b.joined ++ ⟨content, none⟩ :: inner).toArray b.nodes.size f =
      (b.joined ++ ⟨f content, none⟩ :: inner).toArray := by
    rw [revise, ← length_joined b, modify_append_cons]
  obtain ⟨nodes, root, _ | ⟨g, fs⟩⟩ := b
  · simp only [grow, setCurrent, hr]
  · simp only [grow, setCurrent, hr]

end Lemmas

/-! ### Opening and closing a block -/

section Blocks

variable {b : Builder} (k : Block) (content : Node.Content) (inner : List Node)

theorem enter_eq_opened (h : b.Linked) (opening : Opening) :
    b.enter content opening k = b.opened opening k content [] .empty := by
  rw [enter, append_eq_grow h]
  rfl

theorem linked_opened (opening : Opening) : (b.opened opening k content inner .empty).Linked := by
  intro i hi
  cases hi

/-- A block that has just been opened, or is at its `else`, gets a whole chain. -/
theorem extend_opened (opening : Opening) (y : Outline) :
    (b.opened opening k content inner .empty).extend y =
      b.opened opening k content (inner ++ y.layout (b.nodes.size + 1 + inner.length))
        ⟨y.head (b.nodes.size + 1 + inner.length), y.last (b.nodes.size + 1 + inner.length)⟩ := by
  by_cases hy : y = .done
  · rw [hy]
    simp only [extend, Outline.layout, List.append_nil]
    rfl
  · have hs : (b.opened opening k content inner .empty).nodes.size =
        b.nodes.size + 1 + inner.length := size_grow b content inner
    rw [extend_of_ne hy, hs, Outline.head_of_ne hy]
    simp only [opened, grow_append]
    rfl

/-- The `else` of an `if` block whose first chain is complete. -/
theorem turn_opened (chain : Chain) (line : Nat) :
    (b.opened (.branch false) k content inner chain).turn line =
      .ok (b.opened (.branch true) k (content.setBranch false chain.head) inner .empty) := by
  simp only [opened, grow_revise]
  rfl

/-- The `end` of an `if` block whose last chain is complete. -/
theorem leave_branch (inElse : Bool) (chain : Chain) (line : Nat) :
    (b.opened (.branch inElse) k content inner chain).leave line =
      .ok (b.grow (content.setBranch inElse chain.head) inner) := by
  rw [grow_revise]
  rfl

/-- The `end` of a loop whose chain is complete. -/
theorem leave_loop (chain : Chain) (line : Nat) :
    (b.opened .loop k content inner chain).leave line =
      .ok (b.grow (content.setBody chain.head) inner) := by
  rw [grow_revise]
  rfl

end Blocks

/-! ### Balanced sequences are accepted -/

theorem run_cons {b c : Builder} {k : Block} {ks : List Block} {p : Piece}
    (hk : Piece.read k = .ok p) (hc : b.take k p = .ok c) : b.run (k :: ks) = c.run ks := by
  rw [run, step, hk]
  change (b.take k p >>= fun c => c.run ks) = _
  rw [hc]
  rfl

theorem run_else {b c : Builder} {k : Block} {ks : List Block}
    (hk : Piece.read k = .ok (.statement .else_)) (hc : b.turn k.line = .ok c) :
    b.run (k :: ks) = c.run ks :=
  run_cons hk hc

theorem run_end {b c : Builder} {k : Block} {ks : List Block}
    (hk : Piece.read k = .ok (.statement .end_)) (hc : b.leave k.line = .ok c) :
    b.run (k :: ks) = c.run ks :=
  run_cons hk hc

/-- The blocks that are read as a sequence with a given piece in it. -/
theorem read_split {ks : List Block} {ys ps : List Piece} {p : Piece}
    (h : ks.map Piece.read = (ys ++ p :: ps).map .ok) :
    ∃ us k vs, ks = us ++ k :: vs ∧ us.map Piece.read = ys.map .ok ∧ Piece.read k = .ok p ∧
      vs.map Piece.read = ps.map .ok := by
  rw [List.map_append] at h
  obtain ⟨us, ws, rfl, hu, hw⟩ := List.map_eq_append_iff.1 h
  obtain ⟨k, vs, rfl, hk, hv⟩ := List.map_eq_cons_iff.1 hw
  exact ⟨us, k, vs, rfl, hu, hk, hv⟩

/-- A balanced sequence of blocks extends the innermost open chain by its outline. -/
theorem run_balanced {ps : List Piece} {o : Outline} (h : Balanced ps o) :
    ∀ {ks : List Block} (more : List Block) {b : Builder}, ks.map Piece.read = ps.map .ok →
      b.Linked → b.run (ks ++ more) = (b.extend o).run more := by
  induction h with
  | nil =>
    intro ks more b hmap hb
    rw [List.map_eq_nil_iff.1 hmap]
    rfl
  | @text ps o t _ ih =>
    intro ks more b hmap hb
    obtain ⟨k, ks, rfl, hk, hks⟩ := List.map_eq_cons_iff.1 hmap
    rw [List.cons_append, run_cons hk rfl, append_eq_grow hb, ih more hks (linked_grow _ _ _),
      extend_grow (.text t o) (by simp) rfl rfl]
  | @emit ps o e _ ih =>
    intro ks more b hmap hb
    obtain ⟨k, ks, rfl, hk, hks⟩ := List.map_eq_cons_iff.1 hmap
    rw [List.cons_append, run_cons hk rfl, append_eq_grow hb, ih more hks (linked_grow _ _ _),
      extend_grow (.emit e o) (by simp) rfl rfl]
  | @if_ ys ps y o c _ _ ihy ih =>
    intro ks more b hmap hb
    obtain ⟨k, ks, rfl, hk, hks⟩ := List.map_eq_cons_iff.1 hmap
    obtain ⟨us, e, vs, rfl, hu, he, hv⟩ := read_split hks
    rw [List.cons_append, List.append_assoc, List.cons_append, run_cons hk rfl,
      enter_eq_opened k _ hb, ihy _ hu (linked_opened k _ _ _), extend_opened,
      run_end he (leave_branch k _ _ false _ _), ih more hv (linked_grow _ _ _),
      extend_grow (.branch c y .done o) (by simp)]
    · simp [Outline.layout, Outline.length_layout, Outline.size, Outline.head,
        Node.Content.setBranch]
    · simp [Outline.last, Outline.length_layout, Outline.size]
  | @ifElse ys zs ps y z o c _ _ _ ihy ihz ih =>
    intro ks more b hmap hb
    obtain ⟨k, ks, rfl, hk, hks⟩ := List.map_eq_cons_iff.1 hmap
    obtain ⟨us, e, ws, rfl, hu, he, hw⟩ := read_split hks
    obtain ⟨vs, f, ws, rfl, hv, hf, hw⟩ := read_split hw
    rw [List.cons_append, List.append_assoc, List.cons_append, List.append_assoc, List.cons_append,
      run_cons hk rfl, enter_eq_opened k _ hb, ihy _ hu (linked_opened k _ _ _), extend_opened,
      run_else he (turn_opened k _ _ _ _), ihz _ hv (linked_opened k _ _ _), extend_opened,
      run_end hf (leave_branch k _ _ true _ _), ih more hw (linked_grow _ _ _),
      extend_grow (.branch c y z o) (by simp)]
    · simp [Outline.layout, Outline.length_layout, Node.Content.setBranch, Nat.add_assoc]
    · simp [Outline.last, Outline.length_layout, Nat.add_assoc]
  | @for_ ys ps y o hd _ _ ihb ih =>
    intro ks more b hmap hb
    obtain ⟨k, ks, rfl, hk, hks⟩ := List.map_eq_cons_iff.1 hmap
    obtain ⟨us, e, vs, rfl, hu, he, hv⟩ := read_split hks
    rw [List.cons_append, List.append_assoc, List.cons_append, run_cons hk rfl,
      enter_eq_opened k _ hb, ihb _ hu (linked_opened k _ _ _), extend_opened,
      run_end he (leave_loop k _ _ _ _), ih more hv (linked_grow _ _ _),
      extend_grow (.loop hd y o) (by simp)]
    · simp [Outline.layout, Outline.length_layout, Node.Content.setBody]
    · simp [Outline.last, Outline.length_layout]

theorem run_start {ps : List Piece} {o : Outline} {ks : List Block} (h : Balanced ps o)
    (hk : ks.map Piece.read = ps.map .ok) : start.run ks = .ok (start.extend o) := by
  have hr := run_balanced h [] (b := start) hk nofun
  rwa [List.append_nil] at hr

theorem finish_extend_start (o : Outline) : (start.extend o).finish = .ok (ofOutline o) := by
  cases o with
  | done => rfl
  | _ => rfl

/-! ### What is accepted is balanced -/

/-- Blocks that close all open ones, the innermost first, with balanced blocks around every
`else` and `end`. -/
inductive Closes : List Opening → List Piece → Prop where
  | nil {ps : List Piece} {o : Outline} (h : Balanced ps o) : Closes [] ps
  | else_ {os : List Opening} {ys ps : List Piece} {y : Outline} (hy : Balanced ys y)
      (h : Closes (.branch true :: os) ps) :
      Closes (.branch false :: os) (ys ++ .statement .else_ :: ps)
  | end_ {p : Opening} {os : List Opening} {ys ps : List Piece} {y : Outline}
      (hy : Balanced ys y) (h : Closes os ps) : Closes (p :: os) (ys ++ .statement .end_ :: ps)

namespace Closes

variable {os : List Opening} {ps : List Piece}

/-- Balanced blocks may stand before blocks that close the open ones. -/
theorem append {ys : List Piece} {y : Outline} (hy : Balanced ys y) (h : Closes os ps) :
    Closes os (ys ++ ps) := by
  cases h with
  | nil h => exact .nil (hy.append h)
  | else_ hz h =>
    rw [← List.append_assoc]
    exact .else_ (hy.append hz) h
  | end_ hz h =>
    rw [← List.append_assoc]
    exact .end_ (hy.append hz) h

/-- An `if` before what closes its block. -/
theorem if_ (c : Condition) (h : Closes (.branch false :: os) ps) :
    Closes os (.statement (.if_ c) :: ps) := by
  cases h with
  | else_ hy h =>
    cases h with
    | end_ hz h =>
      have := h.append (.ifElse c hy hz .nil)
      simpa only [List.cons_append, List.append_assoc, List.nil_append] using this
  | end_ hy h =>
    have := h.append (.if_ c hy .nil)
    simpa only [List.cons_append, List.append_assoc, List.nil_append] using this

/-- A `for` before what closes its block. -/
theorem for_ (hd : Header) (h : Closes (.loop :: os) ps) :
    Closes os (.statement (.for_ hd) :: ps) := by
  cases h with
  | end_ hy h =>
    have := h.append (.for_ hd hy .nil)
    simpa only [List.cons_append, List.append_assoc, List.nil_append] using this

end Closes

/-- The kinds of the open blocks, the innermost one first. -/
def openings (b : Builder) : List Opening := b.frames.map Frame.opening

theorem openings_append (b : Builder) (content : Node.Content) :
    (b.append content).openings = b.openings := by
  obtain ⟨nodes, root, _ | ⟨f, fs⟩⟩ := b
  · rfl
  · rfl

theorem openings_enter (b : Builder) (content : Node.Content) (opening : Opening) (k : Block) :
    (b.enter content opening k).openings = opening :: b.openings :=
  congrArg (opening :: ·) (openings_append b content)

/-- One block: if what follows closes what is open after it, then with it what was open before. -/
theorem closes_take {b c : Builder} {k : Block} {p : Piece} {ps : List Piece}
    (h : b.take k p = .ok c) (hc : Closes c.openings ps) : Closes b.openings (p :: ps) := by
  rcases p with t | (cond | _ | _ | hd | e)
  · cases h
    rw [openings_append] at hc
    exact hc.append (.text t .nil)
  · cases h
    rw [openings_enter] at hc
    exact hc.if_ cond
  · obtain ⟨nodes, root, _ | ⟨⟨node, _ | _, text, line, chain⟩, fs⟩⟩ := b
    · cases h
    · rename_i inElse
      cases inElse with
      | true => cases h
      | false =>
        cases h
        exact .else_ .nil hc
    · cases h
  · obtain ⟨nodes, root, _ | ⟨f, fs⟩⟩ := b
    · cases h
    · cases h
      exact .end_ .nil hc
  · cases h
    rw [openings_enter] at hc
    exact hc.for_ hd
  · cases h
    rw [openings_append] at hc
    exact hc.append (.emit e .nil)

/-- The blocks that leave nothing open close what was open. -/
theorem closes_run {ks : List Block} : ∀ {b c : Builder}, b.run ks = .ok c → c.frames = [] →
    ∃ ps, ks.map Piece.read = ps.map .ok ∧ Closes b.openings ps := by
  induction ks with
  | nil =>
    intro b c h hc
    cases h
    refine ⟨[], rfl, ?_⟩
    rw [openings, hc]
    exact .nil .nil
  | cons k ks ih =>
    intro b c h hc
    obtain ⟨d, hd, hr⟩ := Parsing.ok_of_bind h
    obtain ⟨p, hp, ht⟩ := Parsing.ok_of_bind hd
    obtain ⟨ps, hps, hcl⟩ := ih hr hc
    exact ⟨p :: ps, by rw [List.map_cons, hp, hps]; rfl, closes_take ht hcl⟩

theorem balanced_of_run {ks : List Block} {c : Builder} (h : start.run ks = .ok c)
    (hc : c.frames = []) :
    ∃ ps o, ks.map Piece.read = ps.map .ok ∧ Balanced ps o := by
  obtain ⟨ps, hps, hcl⟩ := closes_run h hc
  cases hcl with
  | nil hb => exact ⟨ps, _, hps, hb⟩

end Builder

/-! ### Templates -/

/-- Reading the blocks of a template, which are balanced, stores their outline. -/
theorem parse_of_balanced {source : Text} {ks : List Block} {ps : List Piece} {o : Outline}
    (hs : Block.split source = .ok ks) (hk : ks.map Piece.read = ps.map .ok)
    (h : Balanced ps o) : parse source = .ok (ofOutline o) := by
  rw [parse, hs]
  change (Builder.start.run ks >>= Builder.finish) = _
  rw [Builder.run_start h hk]
  exact Builder.finish_extend_start o

/-- The blocks of a template can be read and are balanced. -/
theorem balanced_of_parse {source : Text} {t : Template} (h : parse source = .ok t) :
    ∃ ks ps o, Block.split source = .ok ks ∧ ks.map Piece.read = ps.map .ok ∧ Balanced ps o := by
  obtain ⟨ks, hs, hk⟩ := Parsing.ok_of_bind h
  obtain ⟨c, hc, hf⟩ := Parsing.ok_of_bind hk
  have hfs : c.frames = [] := by
    cases hfr : c.frames with
    | nil => rfl
    | cons f fs =>
      rw [Builder.finish, hfr] at hf
      cases hf
  obtain ⟨ps, o, hps, hb⟩ := Builder.balanced_of_run hc hfs
  exact ⟨ks, ps, o, hs, hps, hb⟩

/-- A text is a template exactly if it can be split into blocks, every block can be read, and the
blocks are balanced. Then the links of the stored template are those of the derived outline, which
is the only one; the nodes are the blocks that are neither `else` nor `end`; a walk through the
links meets them in the order of their numbers; and the outline gives back the blocks without every
`else` that directly precedes its `end`. -/
theorem parse_iff_balanced (source : Text) :
    ((∃ t, parse source = .ok t) ↔
      ∃ ks ps o, Block.split source = .ok ks ∧ ks.map Piece.read = ps.map .ok ∧ Balanced ps o) ∧
    ∀ t ks ps o, parse source = .ok t → Block.split source = .ok ks →
      ks.map Piece.read = ps.map .ok → Balanced ps o →
        t.outline = o ∧ t.nodes.map Node.piece = ps.filter Piece.makesNode ∧
        t.size = (ps.filter Piece.makesNode).length ∧ t.order = List.range t.size ∧
        t.outline.linearise = Piece.dropEmptyElse ps := by
  refine ⟨⟨?_, ?_⟩, ?_⟩
  · rintro ⟨t, h⟩
    exact balanced_of_parse h
  · rintro ⟨ks, ps, o, hs, hk, hb⟩
    exact ⟨_, parse_of_balanced hs hk hb⟩
  · intro t ks ps o ht hs hk hb
    rw [parse_of_balanced hs hk hb] at ht
    cases ht
    have hm : (ofOutline o).nodes.map Node.piece = ps.filter Piece.makesNode := by
      rw [hb.filter_makesNode]
      exact o.map_piece_layout 0
    refine ⟨outline_ofOutline o, hm, ?_, order_ofOutline o, ?_⟩
    · rw [← hm, List.length_map]
      rfl
    · rw [outline_ofOutline, hb.dropEmptyElse_eq]

end Template
end MailMerge
