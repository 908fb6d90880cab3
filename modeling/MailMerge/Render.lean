import MailMerge.Eval
import MailMerge.Template.Parser

/-!
Rendering templates. Elements have a value, which comparisons and arithmetic use, and a text, which
is inserted into the document; loops render their body once per element or member of what they run
over, in a context with one more scope.
-/

namespace MailMerge

/-- What user functions do when they are called, with states in `σ`. -/
structure Host (σ : Type) where
  call : Text → List Text → σ → Except RenderError Value × σ

/-- A functions file once it is loaded: its functions, and the state that loading leaves them in. -/
structure Script (σ : Type) where
  host : Host σ
  start : σ

/-- What loads functions files. -/
structure Loader (σ : Type) where
  /-- Loads the text of a file. -/
  load : Text → Except RenderError (Script σ)
  /-- The state where there are no functions. -/
  idle : σ

/-- The state in which rendering starts. -/
def Loader.start {σ : Type} (l : Loader σ) : Option (Script σ) → σ
  | some s => s.start
  | none => l.idle

/-- What a template is rendered against: the data of a record, the getter for it, the scopes of the
loops around, the innermost one first, and the user functions, if there are any. -/
structure Context (σ : Type) where
  data : Bytes
  root : Getter
  scopes : List Scope
  host : Option (Host σ)

namespace Context

variable {σ : Type}

/-- The context of a record outside of all loops. -/
def ofRecord (data : Bytes) (host : Option (Host σ)) : Context σ := ⟨data, Record.get, [], host⟩

/-- The context in one round of a loop. -/
def enter (ctx : Context σ) (s : Scope) : Context σ := { ctx with scopes := s :: ctx.scopes }

/-- Looks a pattern up. -/
def lookup (ctx : Context σ) (pattern : Text) : Eval σ (Text × Kind) :=
  match Scope.route ctx.scopes ctx.data pattern with
  | .found t k => pure (t, k)
  | .absent p => .fail (.notExists p)
  | .ask d p => do
    .note (.asked p)
    .lift (ctx.root d p)

/-- Calls a user function, whose arguments are computed only if there are user functions at all. -/
def call (ctx : Context σ) (function : Text) (arguments : Eval σ (List Text)) : Eval σ Value :=
  match ctx.host with
  | none => .fail (.noFunctions function)
  | some host => do
    let as ← arguments
    .note (.called function as)
    fun s =>
      let (result, state) := host.call function as s
      ⟨result, [], state⟩

end Context

/-! ### Elements -/

namespace Element

variable {σ : Type}

/-- The number that an operand must be. -/
def asNumber (e : Element) : Value → Except RenderError Float
  | .number x => .ok x
  | v => .error (.expectedNumber e.display v.kind)

/-- The number that two operands give, the left one computed first. -/
def compute (op : Arithmetic) (l r : Element) (left right : Eval σ Value) : Eval σ Float := do
  let x ← Eval.lift (l.asNumber (← left))
  let y ← Eval.lift (r.asNumber (← right))
  pure (op.apply x y)

mutual

/-- The value of an element. -/
def value (ctx : Context σ) : Element → Eval σ Value
  | .access p => do
    let (t, k) ← ctx.lookup p
    .lift (Value.coerce t k)
  | .constant _ v => pure v
  | .arithmetic op l r => do return .number (← compute op l r (l.value ctx) (r.value ctx))
  | .call f as => ctx.call f (texts ctx as)

/-- The text of an element: data and constants as they are written, results of arithmetic in full
precision, results of functions as displayed. -/
def text (ctx : Context σ) : Element → Eval σ Text
  | .access p => do return (← ctx.lookup p).1
  | .constant t _ => pure t
  | .arithmetic op l r => do
    return (Value.number (← compute op l r (l.value ctx) (r.value ctx))).plain
  | .call f as => do return (← ctx.call f (texts ctx as)).display

/-- The texts of elements, from left to right. -/
def texts (ctx : Context σ) : List Element → Eval σ (List Text)
  | [] => pure []
  | e :: es => do
    let t ← e.text ctx
    let ts ← texts ctx es
    pure (t :: ts)

end

/-- Whether an element is present; looked-up data is not read for that. -/
def isPresent (ctx : Context σ) (e : Element) : Eval σ Bool := do
  let found ←
    match e with
    | .access p => (do let _ ← ctx.lookup p : Eval σ Unit).attempt
    | e => (do let _ ← e.value ctx : Eval σ Unit).attempt
  match found with
  | .ok () => pure true
  | .error err => if err.isMissing then pure false else .fail err

/-- Whether an element is of a kind; a missing one is of none. -/
def isOfKind (ctx : Context σ) (e : Element) (k : Kind) : Eval σ Bool := do
  match ← (e.value ctx).attempt with
  | .ok v => pure (v.kind = k)
  | .error err => if err.isMissing then pure false else .fail err

end Element

/-! ### Conditions -/

namespace Condition

variable {σ : Type}

/-- The truth value that an element must be. -/
def asBoolean (e : Element) : Value → Except RenderError Bool
  | .bool b => .ok b
  | v => .error (.expectedBoolean e.display v.kind)

/-- Whether two elements compare as the operator says, the left one evaluated first. -/
def comparison (ctx : Context σ) (op : Comparison) (l r : Element) : Eval σ Bool := do
  let a ← l.value ctx
  let b ← r.value ctx
  .lift (a.satisfies op b)

/-- Whether a condition holds. -/
def holds (ctx : Context σ) : Condition → Eval σ Bool
  | .single e => do .lift (asBoolean e (← e.value ctx))
  | .both a b => do if ← a.holds ctx then b.holds ctx else pure false
  | .either a b => do if ← a.holds ctx then pure true else b.holds ctx
  | .negated a => do return !(← a.holds ctx)
  | .compare op l r => comparison ctx op l r
  | .present e => e.isPresent ctx
  | .ofKind e k => e.isOfKind ctx k

end Condition

/-! ### Templates -/

/-- The scopes of the rounds of a loop over data of the given kind. -/
def Header.rounds (h : Header) (raw : Text) (kind : Kind) : Except RenderError (List Scope) :=
  match kind with
  | .array => do
    let es ← Record.elements (Utf8.encode raw)
    .ok (es.zipIdx.map fun ((t, k), i) =>
      ⟨h.item, h.index, Utf8.encode t, k, .position (i + 1)⟩)
  | .object => do
    let ms ← Record.members (Utf8.encode raw)
    .ok (ms.map fun (name, t, k) => ⟨h.item, h.index, Utf8.encode t, k, .key name⟩)
  | k => .error (.notIterable h.target k)

/-- What an emitted element that leads to nothing is reported as. -/
def Element.reportMissing (e : Element) : RenderError → RenderError
  | .notExists _ => .invalidAccess e.display
  | err => err

namespace Outline

variable {σ : Type}

/-- The text of a chain of nodes. -/
def render : Outline → Context σ → Eval σ Text
  | .done, _ => pure []
  | .text t next, ctx => do
    .note (.text t)
    let rest ← next.render ctx
    pure (t ++ rest)
  | .emit e next, ctx => do
    .note (.emit e.display)
    let t ← (e.text ctx).mapError e.reportMissing
    let rest ← next.render ctx
    pure (t ++ rest)
  | .branch c yes no next, ctx => do
    .note .branch
    let t ← (do if ← c.holds ctx then yes.render ctx else no.render ctx : Eval σ Text)
    let rest ← next.render ctx
    pure (t ++ rest)
  | .loop h body next, ctx => do
    .note (.loop h.item h.target)
    let (raw, kind) ← ctx.lookup h.target
    let scopes ← Eval.lift (h.rounds raw kind)
    let t ← Eval.concat (fun s => do
      .note (.round s.binding h.target)
      body.render (ctx.enter s)) scopes
    let rest ← next.render ctx
    pure (t ++ rest)

end Outline

namespace Template

variable {σ : Type}

/-- The document that a template gives. -/
def render (t : Template) (ctx : Context σ) : Eval σ Text := t.outline.render ctx

end Template
end MailMerge
