import MailMerge.Outline

/-!
A template as it is stored: all nodes in one list, in document order, each with the numbers of its
next sibling and of the first nodes of its branches. The outline of a template is read off the
numbers, and writing an outline down in this form is undone by reading it.
-/

namespace MailMerge

/-- What a node contributes. Branches and bodies are given by their first node. -/
inductive Node.Content where
  | text (t : Text)
  | emit (e : Element)
  | branch (c : Condition) (yes no : Option Nat)
  | loop (h : Header) (body : Option Nat)
deriving Inhabited

/-- A node and the number of its next sibling. -/
structure Node where
  content : Node.Content
  next : Option Nat
deriving Inhabited

/-- A template: its nodes, and the number of the first one of the top-level chain. -/
structure Template where
  nodes : List Node
  root : Option Nat
deriving Inhabited

namespace Outline

/-- The number of the first node of a chain whose nodes are counted from `k`. -/
def head (k : Nat) : Outline → Option Nat
  | .done => none
  | _ => some k

/-- The nodes of a chain, numbered from `k` in document order. -/
def layout (k : Nat) : Outline → List Node
  | .done => []
  | .text t n => ⟨.text t, n.head (k + 1)⟩ :: n.layout (k + 1)
  | .emit e n => ⟨.emit e, n.head (k + 1)⟩ :: n.layout (k + 1)
  | .branch c y z n =>
    let i := k + 1 + y.size
    let j := i + z.size
    ⟨.branch c (y.head (k + 1)) (z.head i), n.head j⟩ ::
      (y.layout (k + 1) ++ z.layout i ++ n.layout j)
  | .loop h b n =>
    let j := k + 1 + b.size
    ⟨.loop h (b.head (k + 1)), n.head j⟩ :: (b.layout (k + 1) ++ n.layout j)

theorem length_layout (o : Outline) (k : Nat) : (o.layout k).length = o.size := by
  induction o generalizing k with
  | done => rfl
  | text _ _ ih => simp [layout, size, ih]
  | emit _ _ ih => simp [layout, size, ih]
  | branch _ _ _ _ ihy ihz ihn => simp [layout, size, ihy, ihz, ihn]; omega
  | loop _ _ _ ihb ihn => simp [layout, size, ihb, ihn]

end Outline

namespace Template

/-- The stored form of an outline. -/
def ofOutline (o : Outline) : Template := ⟨o.layout 0, o.head 0⟩

/-- The chain that starts at a node; `fuel` bounds how many nodes follow one another in it. -/
def unfold (nodes : Array Node) : Nat → Option Nat → Outline
  | 0, _ => .done
  | _ + 1, none => .done
  | fuel + 1, some i =>
    match nodes[i]? with
    | none => .done
    | some node =>
      let next := unfold nodes fuel node.next
      match node.content with
      | .text t => .text t next
      | .emit e => .emit e next
      | .branch c y z => .branch c (unfold nodes fuel y) (unfold nodes fuel z) next
      | .loop h b => .loop h (unfold nodes fuel b) next

/-- The structure of a template. -/
def outline (t : Template) : Outline := unfold t.nodes.toArray t.nodes.length t.root

/-! ### Reading a stored outline -/

/-- The given nodes are stored from a number on. -/
def Stored (nodes : Array Node) (k : Nat) (l : List Node) : Prop := l <+: nodes.toList.drop k

namespace Stored

variable {nodes : Array Node} {k : Nat} {a : Node} {l m : List Node}

theorem head (h : Stored nodes k (a :: l)) : nodes[k]? = some a := by
  obtain ⟨m, hm⟩ := h
  have hk : (nodes.toList.drop k)[0]? = nodes.toList[k]? := List.getElem?_drop
  rw [← hm] at hk
  rw [← Array.getElem?_toList, ← hk]
  rfl

theorem tail (h : Stored nodes k (a :: l)) : Stored nodes (k + 1) l := by
  obtain ⟨m, hm⟩ := h
  refine ⟨m, ?_⟩
  rw [← List.drop_drop, ← hm]
  rfl

theorem left (h : Stored nodes k (l ++ m)) : Stored nodes k l :=
  (List.prefix_append l m).trans h

theorem right (h : Stored nodes k (l ++ m)) : Stored nodes (k + l.length) m := by
  obtain ⟨r, hr⟩ := h
  rw [List.append_assoc] at hr
  exact ⟨r, by rw [← List.drop_drop, ← hr, List.drop_left]⟩

/-- Where the chains of an `if` block are stored. -/
theorem branch {c : Condition} {y z n : Outline}
    (h : Stored nodes k ((Outline.branch c y z n).layout k)) :
    Stored nodes (k + 1) (y.layout (k + 1)) ∧
      Stored nodes (k + 1 + y.size) (z.layout (k + 1 + y.size)) ∧
      Stored nodes (k + 1 + y.size + z.size) (n.layout (k + 1 + y.size + z.size)) := by
  have hz := h.tail.left.right
  have hn := h.tail.right
  rw [Outline.length_layout] at hz
  rw [List.length_append, Outline.length_layout, Outline.length_layout, ← Nat.add_assoc] at hn
  exact ⟨h.tail.left.left, hz, hn⟩

/-- Where the chains of a loop are stored. -/
theorem loop {hd : Header} {b n : Outline} (h : Stored nodes k ((Outline.loop hd b n).layout k)) :
    Stored nodes (k + 1) (b.layout (k + 1)) ∧
      Stored nodes (k + 1 + b.size) (n.layout (k + 1 + b.size)) := by
  have hn := h.tail.right
  rw [Outline.length_layout] at hn
  exact ⟨h.tail.left, hn⟩

end Stored

/-- A stored chain is read off its numbers, if there is fuel for each of its nodes. -/
theorem unfold_stored {nodes : Array Node} {o : Outline} :
    ∀ (fuel : Nat) {k : Nat}, Stored nodes k (o.layout k) → o.size ≤ fuel →
      unfold nodes fuel (o.head k) = o := by
  induction o with
  | done =>
    rintro (_ | fuel) k - -
    · rfl
    · rfl
  | text t n ih =>
    rintro (_ | fuel) k h hf
    · cases hf
    · change unfold nodes (fuel + 1) (some k) = _
      have hn := ih fuel h.tail (Nat.le_of_succ_le_succ hf)
      simp only [unfold, h.head, hn]
  | emit e n ih =>
    rintro (_ | fuel) k h hf
    · cases hf
    · change unfold nodes (fuel + 1) (some k) = _
      have hn := ih fuel h.tail (Nat.le_of_succ_le_succ hf)
      simp only [unfold, h.head, hn]
  | branch c y z n ihy ihz ihn =>
    rintro (_ | fuel) k h hf
    · cases hf
    · change unfold nodes (fuel + 1) (some k) = _
      simp only [Outline.size] at hf
      obtain ⟨hy, hz, hn⟩ := h.branch
      have hy := ihy fuel hy (by omega)
      have hz := ihz fuel hz (by omega)
      have hn := ihn fuel hn (by omega)
      simp only [unfold, h.head, hy, hz, hn]
  | loop hd b n ihb ihn =>
    rintro (_ | fuel) k h hf
    · cases hf
    · change unfold nodes (fuel + 1) (some k) = _
      simp only [Outline.size] at hf
      obtain ⟨hb, hn⟩ := h.loop
      have hb := ihb fuel hb (by omega)
      have hn := ihn fuel hn (by omega)
      simp only [unfold, h.head, hb, hn]

/-- The nodes of an outline stand from the first number on. -/
theorem stored_ofOutline (o : Outline) : Stored (ofOutline o).nodes.toArray 0 (o.layout 0) :=
  List.prefix_refl _

/-- A stored outline is read off its numbers. -/
theorem outline_ofOutline (o : Outline) : (ofOutline o).outline = o :=
  unfold_stored _ (stored_ofOutline o) (Nat.le_of_eq (o.length_layout 0).symm)

/-! ### Chains -/

/-- The number of nodes. -/
def size (t : Template) : Nat := t.nodes.length

/-- The template without nodes. -/
def empty : Template := ⟨[], none⟩

/-- The nodes of the chain that starts at a node, those of branches and bodies left out; `fuel`
bounds how many there are. -/
def chainFrom (t : Template) : Nat → Option Nat → List Node
  | 0, _ => []
  | _ + 1, none => []
  | fuel + 1, some i =>
    match t.nodes[i]? with
    | none => []
    | some node => node :: chainFrom t fuel node.next

/-- The nodes of the chain that starts at a node. -/
def chain (t : Template) (start : Option Nat) : List Node := t.chainFrom t.size start

end Template
end MailMerge
