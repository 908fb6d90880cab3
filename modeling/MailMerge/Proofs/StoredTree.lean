import MailMerge.Proofs.TemplateGrammar

/-!
# A stored template is a tree

The numbers stored in a template, its root and the links of its nodes, name every node exactly once,
and a node only names nodes behind it. So no number leads out of the template, every chain of
siblings ends, and every node is reached from the root, on one way only.
-/

namespace MailMerge

/-- The numbers stored in a node: the first nodes of its branches or of its body, and its next
sibling. -/
def Node.links (n : Node) : List Nat :=
  match n.content with
  | .text _ | .emit _ => n.next.toList
  | .branch _ y z => y.toList ++ (z.toList ++ n.next.toList)
  | .loop _ b => b.toList ++ n.next.toList

/-! ### The links of a chain -/

namespace Outline

theorem eq_of_mem_head {o : Outline} {j k : Nat} (h : j ∈ (o.head k).toList) : j = k := by
  cases o with
  | done => cases h
  | _ => exact List.mem_singleton.mp h

/-- The first number of a chain and the links of its nodes name each of its nodes once. -/
theorem links_layout (o : Outline) (k : Nat) :
    ((o.head k).toList ++ (o.layout k).flatMap Node.links).Perm (List.range' k o.size) := by
  induction o generalizing k with
  | done => exact .nil
  | text t n ih => exact (ih (k + 1)).cons k
  | emit e n ih => exact (ih (k + 1)).cons k
  | branch c y z n ihy ihz ihn =>
    have hrange : List.range' k (branch c y z n).size = k :: (List.range' (k + 1) y.size ++
        (List.range' (k + 1 + y.size) z.size ++
          List.range' (k + 1 + y.size + z.size) n.size)) := by
      rw [List.range'_append_1, List.range'_append_1, ← Nat.add_assoc]
      rfl
    rw [hrange, head_of_ne (by simp), Option.toList_some, List.singleton_append, layout]
    simp only [List.flatMap_cons, List.flatMap_append, Node.links]
    refine .cons k (.trans ?_ ((ihy (k + 1)).append ((ihz _).append (ihn _))))
    -- the three first numbers stand in one node, before the links of the three chains
    refine List.perm_iff_count.mpr fun j => ?_
    simp only [List.count_append]
    omega
  | loop h b n ihb ihn =>
    have hrange : List.range' k (loop h b n).size =
        k :: (List.range' (k + 1) b.size ++ List.range' (k + 1 + b.size) n.size) := by
      rw [List.range'_append_1]
      rfl
    rw [hrange, head_of_ne (by simp), Option.toList_some, List.singleton_append, layout]
    simp only [List.flatMap_cons, List.flatMap_append, Node.links]
    refine .cons k (.trans ?_ ((ihb (k + 1)).append (ihn _)))
    refine List.perm_iff_count.mpr fun j => ?_
    simp only [List.count_append]
    omega

/-- The links of a node in a chain lead to nodes behind it. -/
theorem forward_layout (o : Outline) {k i j : Nat} {n : Node}
    (hn : (n, i) ∈ (o.layout k).zipIdx k) (hj : j ∈ n.links) : i < j := by
  induction o generalizing k with
  | done => cases hn
  | text t m ih | emit e m ih =>
    rcases List.mem_cons.mp hn with h | h
    · cases h
      rw [eq_of_mem_head hj]
      exact Nat.lt_succ_self _
    · exact ih h
  | branch c y z m ihy ihz ihm =>
    rcases List.mem_cons.mp hn with h | h
    · cases h
      rcases List.mem_append.mp hj with hj | hj
      · rw [eq_of_mem_head hj]
        omega
      · rcases List.mem_append.mp hj with hj | hj
        · rw [eq_of_mem_head hj]
          omega
        · rw [eq_of_mem_head hj]
          omega
    · rw [List.zipIdx_append, List.zipIdx_append, List.length_append, length_layout,
        length_layout, ← Nat.add_assoc] at h
      rcases List.mem_append.mp h with h | h
      · rcases List.mem_append.mp h with h | h
        · exact ihy h
        · exact ihz h
      · exact ihm h
  | loop hd b m ihb ihm =>
    rcases List.mem_cons.mp hn with h | h
    · cases h
      rcases List.mem_append.mp hj with hj | hj
      · rw [eq_of_mem_head hj]
        omega
      · rw [eq_of_mem_head hj]
        omega
    · rw [List.zipIdx_append, length_layout] at h
      rcases List.mem_append.mp h with h | h
      · exact ihb h
      · exact ihm h

end Outline

/-! ### Trees -/

namespace Template

/-- The numbers stored in a template: its root, and the links of all nodes. -/
def links (t : Template) : List Nat := t.root.toList ++ t.nodes.flatMap Node.links

/-- The nodes that links lead to, from the root on. -/
inductive Reached (t : Template) : Nat → Prop where
  | root {i : Nat} (h : t.root = some i) : Reached t i
  | link {i j : Nat} {n : Node} (hi : Reached t i) (hn : t.nodes[i]? = some n)
      (hj : j ∈ n.links) : Reached t j

/-- The nodes of the chain of siblings that begins with a number, up to its end. -/
inductive Siblings (t : Template) : Option Nat → List Node → Prop where
  | nil : Siblings t none []
  | cons {i : Nat} {n : Node} {rest : List Node} (hn : t.nodes[i]? = some n)
      (hr : Siblings t n.next rest) : Siblings t (some i) (n :: rest)

/-- A template whose stored numbers make its nodes a tree in document order: every node is named
once, and by a node before it. -/
structure IsTree (t : Template) : Prop where
  once : t.links.Perm (List.range t.size)
  forward : ∀ (i : Nat) (n : Node), t.nodes[i]? = some n → ∀ j ∈ n.links, i < j

theorem isTree_ofOutline (o : Outline) : (ofOutline o).IsTree where
  once := by
    have hs : (ofOutline o).size = o.size := o.length_layout 0
    rw [hs, List.range_eq_range']
    exact o.links_layout 0
  forward i n hn j hj := o.forward_layout (List.mem_zipIdx_iff_getElem?.mpr hn) hj

namespace IsTree

variable {t : Template}

/-- No number leads out of the template. -/
theorem lt_size (h : t.IsTree) {i : Nat} (hi : i ∈ t.links) : i < t.size :=
  List.mem_range.mp (h.once.mem_iff.mp hi)

theorem link_lt_size (h : t.IsTree) {i j : Nat} {n : Node} (hn : t.nodes[i]? = some n)
    (hj : j ∈ n.links) : j < t.size :=
  h.lt_size (List.mem_append_right _ (List.mem_flatMap.mpr ⟨n, List.mem_of_getElem? hn, hj⟩))

/-- Every node is reached: by induction on its number, for it is named by the root or by a node
before it. -/
theorem reached (h : t.IsTree) (i : Nat) : i < t.size → t.Reached i := by
  induction i using Nat.strongRecOn with
  | ind i ih =>
    intro hi
    have hmem : i ∈ t.links := h.once.mem_iff.mpr (List.mem_range.mpr hi)
    rcases List.mem_append.mp hmem with hroot | hnode
    · exact .root (Option.mem_toList.mp hroot)
    · obtain ⟨n, hn, hlink⟩ := List.mem_flatMap.mp hnode
      obtain ⟨k, hk⟩ := List.getElem?_of_mem hn
      have hlt := h.forward k n hk i hlink
      exact .link (ih k hlt (Nat.lt_trans hlt hi)) hk hlink

theorem next_mem_links {n : Node} {j : Nat} (h : n.next = some j) : j ∈ n.links := by
  unfold Node.links
  split <;> simp [h]

/-- A chain of siblings ends, for the numbers in it increase. -/
theorem siblings_chainFrom (h : t.IsTree) :
    ∀ (fuel i : Nat), i < t.size → t.size ≤ fuel + i →
      t.Siblings (some i) (t.chainFrom fuel (some i)) := by
  intro fuel
  induction fuel with
  | zero => exact fun i hi hf => absurd hi (by omega)
  | succ fuel ih =>
    intro i hi hf
    obtain ⟨node, hn⟩ : ∃ node, t.nodes[i]? = some node := ⟨_, List.getElem?_eq_getElem hi⟩
    rw [chainFrom, hn]
    refine .cons hn ?_
    cases hnext : node.next with
    | none =>
      cases fuel with
      | zero => exact .nil
      | succ fuel => exact .nil
    | some j =>
      have hj := next_mem_links hnext
      have hlt := h.forward i _ hn j hj
      exact ih j (h.link_lt_size hn hj) (by omega)

theorem siblings_chain (h : t.IsTree) {start : Option Nat} (hs : ∀ i ∈ start, i < t.size) :
    t.Siblings start (t.chain start) := by
  cases start with
  | none =>
    unfold chain
    cases t.size with
    | zero => exact .nil
    | succ n => exact .nil
  | some i => exact h.siblings_chainFrom t.size i (hs i rfl) (Nat.le_add_right _ _)

end IsTree

/-- In a template that was parsed, the root and the links name every node exactly once and nothing
else, and a node only names nodes behind it. Every node is reached from the root, the chain of
siblings of any node ends and never leaves the template, and a walk along the links meets the nodes
in the order of their numbers. -/
theorem tree_of_parse {source : Text} {t : Template} (h : parse source = .ok t) :
    t.links.Perm (List.range t.size) ∧
    (∀ (i : Nat) (n : Node), t.nodes[i]? = some n → ∀ j ∈ n.links, i < j ∧ j < t.size) ∧
    (∀ i, i < t.size → t.Reached i) ∧
    (∀ start : Option Nat, (∀ i ∈ start, i < t.size) → t.Siblings start (t.chain start)) ∧
    t.order = List.range t.size := by
  obtain ⟨ks, ps, o, hs, hk, hb⟩ := balanced_of_parse h
  rw [parse_of_balanced hs hk hb] at h
  cases h
  have htree := isTree_ofOutline o
  exact ⟨htree.once, fun i n hn j hj => ⟨htree.forward i n hn j hj, htree.link_lt_size hn hj⟩,
    htree.reached, fun _ => htree.siblings_chain, order_ofOutline o⟩

/-- A loop inside of the first of two branches: the numbers in it stand between those of the
branches. -/
theorem tree_of_nested_blocks : ∃ t,
    parse "$if a$x$for i in b$$i$$end$$else$y$end$z".toList = .ok t ∧ t.size = 6 ∧
      t.links = [0, 1, 4, 5, 2, 3] ∧ t.links.Perm (List.range t.size) ∧ t.Reached 3 ∧
      t.Siblings (some 1) (t.chain (some 1)) ∧ t.order = [0, 1, 2, 3, 4, 5] := by
  let inner : Outline := .loop ⟨"i".toList, none, "b".toList⟩ (.emit (.access "i".toList) .done)
    .done
  let o : Outline := .branch (.single (.access "a".toList)) (.text "x".toList inner)
    (.text "y".toList .done) (.text "z".toList .done)
  have h : parse "$if a$x$for i in b$$i$$end$$else$y$end$z".toList = .ok (ofOutline o) := rfl
  obtain ⟨hlinks, -, hreached, hchain, horder⟩ := tree_of_parse h
  refine ⟨_, h, rfl, rfl, hlinks, hreached 3 (by decide), hchain (some 1) ?_, horder⟩
  rintro _ ⟨⟩
  decide

end Template
end MailMerge
