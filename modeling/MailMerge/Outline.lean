import MailMerge.Statement

/-!
The structure of a template: a chain of nodes, each followed by its next sibling, where `if` and
`for` blocks hold chains of their own.
-/

namespace MailMerge

/-- A chain of nodes. -/
inductive Outline where
  /-- The end of a chain. -/
  | done
  /-- Literal text. -/
  | text (t : Text) (next : Outline)
  /-- An element to insert. -/
  | emit (e : Element) (next : Outline)
  /-- An `if` block with its two branches. -/
  | branch (c : Condition) (yes no next : Outline)
  /-- A `for` block. -/
  | loop (h : Header) (body next : Outline)
deriving Inhabited

namespace Outline

/-- One chain after another. -/
def append : Outline → Outline → Outline
  | .done, o => o
  | .text t n, o => .text t (n.append o)
  | .emit e n, o => .emit e (n.append o)
  | .branch c y z n, o => .branch c y z (n.append o)
  | .loop h b n, o => .loop h b (n.append o)

instance : Append Outline := ⟨append⟩

/-- How many nodes a chain holds, those in branches and bodies included. -/
def size : Outline → Nat
  | .done => 0
  | .text _ n => n.size + 1
  | .emit _ n => n.size + 1
  | .branch _ y z n => y.size + z.size + n.size + 1
  | .loop _ b n => b.size + n.size + 1

/-! ### Laws -/

@[simp] theorem done_append (o : Outline) : .done ++ o = o := rfl

@[simp] theorem append_done (o : Outline) : o ++ .done = o := by
  change o.append .done = o
  induction o with
  | done => rfl
  | text _ _ ih => rw [append, ih]
  | emit _ _ ih => rw [append, ih]
  | branch _ _ _ _ _ _ ih => rw [append, ih]
  | loop _ _ _ _ ih => rw [append, ih]

end Outline
end MailMerge
