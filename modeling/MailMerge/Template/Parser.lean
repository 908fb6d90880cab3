import MailMerge.Block
import MailMerge.Template

/-!
Reading a template: its blocks are taken one after another and every node they make is stored at
once, linked to the last node of the innermost open chain. An `if` or `for` block stays open until
its `end`; only then, or at its `else`, is the first node of its chain written into its own node.
-/

namespace MailMerge

/-- What a block holds once it has been read. -/
inductive Piece where
  /-- Literal text. -/
  | text (t : Text)
  /-- What an expression says. -/
  | statement (s : Statement)
deriving Inhabited

/-- Reads a block. -/
def Piece.read (b : Block) : Except TemplateError Piece :=
  if b.isExpression then do .ok (.statement (← Statement.parse b.text b.line))
  else .ok (.text b.text)

namespace Node.Content

/-- Writes the first node of a branch; only an `if` block has branches. -/
def setBranch (inElse : Bool) (head : Option Nat) : Content → Content
  | .branch c y z => if inElse then .branch c y head else .branch c head z
  | other => other

/-- Writes the first node of a body; only a loop has one. -/
def setBody (head : Option Nat) : Content → Content
  | .loop h _ => .loop h head
  | other => other

end Node.Content

namespace Template

/-! ### Open blocks -/

/-- The chain that is being built: its first node and its last. -/
structure Chain where
  head : Option Nat
  tail : Option Nat

/-- The chain without nodes. -/
def Chain.empty : Chain := ⟨none, none⟩

/-- The chain with one more node. -/
def Chain.add (c : Chain) (id : Nat) : Chain := ⟨c.head.or (some id), some id⟩

/-- What kind of block is open. -/
inductive Opening where
  | branch (inElse : Bool)
  | loop

/-- An open block: its node, its text, its line, and its chain so far. -/
structure Frame where
  node : Nat
  opening : Opening
  text : Text
  line : Nat
  chain : Chain

/-- The nodes so far, the chain at top level, and the open blocks, the innermost one first. -/
structure Builder where
  nodes : Array Node
  root : Chain
  frames : List Frame

/-- Makes a node the next sibling of the last node of a chain, if the chain has one. -/
def link (nodes : Array Node) (tail : Option Nat) (id : Nat) : Array Node :=
  match tail with
  | none => nodes
  | some i => nodes.modify i fun node => ⟨node.content, some id⟩

/-- Changes the content of a node. -/
def revise (nodes : Array Node) (id : Nat) (f : Node.Content → Node.Content) : Array Node :=
  nodes.modify id fun node => ⟨f node.content, node.next⟩

namespace Builder

/-- Before the first block. -/
def start : Builder := ⟨#[], .empty, []⟩

/-- The chain that the next node joins. -/
def current (b : Builder) : Chain :=
  match b.frames with
  | [] => b.root
  | f :: _ => f.chain

/-- Replaces the chain that the next node joins. -/
def setCurrent (b : Builder) (c : Chain) : Builder :=
  match b.frames with
  | [] => ⟨b.nodes, c, []⟩
  | f :: fs => ⟨b.nodes, b.root, ⟨f.node, f.opening, f.text, f.line, c⟩ :: fs⟩

/-- Stores a node at the end of the innermost open chain. -/
def append (b : Builder) (content : Node.Content) : Builder :=
  let id := b.nodes.size
  let nodes := link (b.nodes.push ⟨content, none⟩) b.current.tail id
  (⟨nodes, b.root, b.frames⟩ : Builder).setCurrent (b.current.add id)

/-- Stores a node and opens its block. -/
def enter (b : Builder) (content : Node.Content) (opening : Opening) (k : Block) : Builder :=
  let c := b.append content
  ⟨c.nodes, c.root, ⟨b.nodes.size, opening, k.text.trim, k.line, .empty⟩ :: c.frames⟩

/-- The `else` of the innermost block. -/
def turn (b : Builder) (line : Nat) : Except TemplateError Builder :=
  match b.frames with
  | [] => .error ⟨.unmatchedBlock Keyword.else_.spelling, line⟩
  | f :: fs =>
    match f.opening with
    | .branch false =>
      .ok ⟨revise b.nodes f.node (.setBranch false f.chain.head), b.root,
        ⟨f.node, .branch true, f.text, f.line, .empty⟩ :: fs⟩
    | _ => .error ⟨.duplicateElse, line⟩

/-- The `end` of the innermost block. -/
def leave (b : Builder) (line : Nat) : Except TemplateError Builder :=
  match b.frames with
  | [] => .error ⟨.unmatchedBlock Keyword.end_.spelling, line⟩
  | f :: fs =>
    let set :=
      match f.opening with
      | .branch inElse => .setBranch inElse f.chain.head
      | .loop => .setBody f.chain.head
    .ok ⟨revise b.nodes f.node set, b.root, fs⟩

/-- Takes a block that has been read. -/
def take (b : Builder) (k : Block) : Piece → Except TemplateError Builder
  | .text t => .ok (b.append (.text t))
  | .statement (.emit e) => .ok (b.append (.emit e))
  | .statement (.if_ c) => .ok (b.enter (.branch c none none) (.branch false) k)
  | .statement (.for_ h) => .ok (b.enter (.loop h none) .loop k)
  | .statement .else_ => b.turn k.line
  | .statement .end_ => b.leave k.line

/-- Takes one block. -/
def step (b : Builder) (k : Block) : Except TemplateError Builder := do
  b.take k (← Piece.read k)

/-- Takes blocks in order. -/
def run (b : Builder) : List Block → Except TemplateError Builder
  | [] => .ok b
  | k :: ks => do (← b.step k).run ks

/-- No block may stay open. -/
def finish (b : Builder) : Except TemplateError Template :=
  match b.frames with
  | [] => .ok ⟨b.nodes.toList, b.root.head⟩
  | f :: _ => .error ⟨.unclosedBlock f.text, f.line⟩

/-- The expressions that are looked at, up to the first one that fails. -/
def examined (b : Builder) : List Block → List Text
  | [] => []
  | k :: ks =>
    let rest :=
      match b.step k with
      | .ok b => b.examined ks
      | .error _ => []
    if k.isExpression then k.text.trim :: rest else rest

end Builder

/-! ### Templates -/

/-- The template that a source text writes. -/
def parse (source : Text) : Except TemplateError Template := do
  (← Builder.start.run (← Block.split source)).finish

/-- The expressions that reading a source text looks at. -/
def examined (source : Text) : List Text :=
  match Block.split source with
  | .ok bs => Builder.start.examined bs
  | .error _ => []

end Template
end MailMerge
