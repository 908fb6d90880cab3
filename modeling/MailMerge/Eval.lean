import MailMerge.Scope
import MailMerge.Value

/-!
Computations of rendering. Each one gives a result or an error, the events on its way, and the state
in which it leaves the user functions; what happened before an error stays visible.
-/

namespace MailMerge

/-- Something that rendering does. -/
inductive Event where
  /-- The record getter is asked for a pattern. -/
  | asked (pattern : Text)
  /-- A user function is called. -/
  | called (function : Text) (arguments : List Text)
  /-- A node of literal text begins. -/
  | text (t : Text)
  /-- A node that emits an element begins. -/
  | emit (element : Text)
  /-- An `if` node begins. -/
  | branch
  /-- A `for` node begins. -/
  | loop (item target : Text)
  /-- A round of a loop begins. -/
  | round (binding : Binding) (target : Text)
deriving DecidableEq, Repr

namespace Event

/-- A character as a note quotes it. -/
def escape : Char → Text
  | '\n' => ['\\', 'n']
  | '\r' => ['\\', 'r']
  | '\t' => ['\\', 't']
  | '\x00' => ['\\', '0']
  | '"' => ['\\', '"']
  | '\\' => ['\\', '\\']
  | c =>
    if c.toNat < 0x20 ∨ c.toNat = 0x7F then
      ['\\', 'u', '\x7b'] ++ (Nat.toDigits 16 c.toNat ++ ['\x7d'])
    else [c]

/-- A text as a note quotes it. -/
def quote (t : Text) : Text := '"' :: (t.flatMap escape ++ ['"'])

/-- What a log notes of an event, if anything. -/
def note? : Event → Option Text
  | .asked _ => none
  | .called f as => some ("Function: ".toList ++ f ++ '(' :: (Text.join [',', ' '] as ++ [')']))
  | .text t => some ("Text: ".toList ++ quote t)
  | .emit e => some ("Variable Access: ".toList ++ e)
  | .branch => some "If".toList
  | .loop i t => some ("For: ".toList ++ i ++ " in ".toList ++ t)
  | .round b t => some ("Iteration ".toList ++ b.label ++ " of ".toList ++ t)

/-- The lines that a log holds about events. -/
def log (es : List Event) : List Text :=
  (es.filterMap note?).map ("EVALUATING: ".toList ++ ·)

/-- The patterns that the record getter was asked for. -/
def lookups (es : List Event) : List Text :=
  es.filterMap fun
    | .asked p => some p
    | _ => none

/-- The calls of user functions. -/
def calls (es : List Event) : List (Text × List Text) :=
  es.filterMap fun
    | .called f as => some (f, as)
    | _ => none

end Event

/-- What a computation gives. -/
structure Outcome (σ α : Type) where
  result : Except RenderError α
  events : List Event
  state : σ

/-- A computation on user functions with states in `σ`. -/
def Eval (σ α : Type) : Type := σ → Outcome σ α

namespace Eval

variable {σ α β : Type}

/-- The result is known. -/
def lift (r : Except RenderError α) : Eval σ α := fun s => ⟨r, [], s⟩

/-- One computation after another. An error ends both. -/
def andThen (x : Eval σ α) (f : α → Eval σ β) : Eval σ β := fun s =>
  match x s with
  | ⟨.error e, events, s⟩ => ⟨.error e, events, s⟩
  | ⟨.ok a, events, s⟩ =>
    let o := f a s
    ⟨o.result, events ++ o.events, o.state⟩

theorem andThen_lift_ok (x : Eval σ α) : x.andThen (fun a => lift (.ok a)) = x := by
  funext s
  unfold andThen
  cases h : x s with
  | mk r e t => cases r <;> simp [lift]

theorem lift_ok_andThen (a : α) (f : α → Eval σ β) : (lift (.ok a)).andThen f = f a := rfl

theorem andThen_assoc {γ : Type} (x : Eval σ α) (f : α → Eval σ β) (g : β → Eval σ γ) :
    (x.andThen f).andThen g = x.andThen fun a => (f a).andThen g := by
  funext s
  unfold andThen
  cases h : x s with
  | mk r e t =>
    cases r with
    | error => rfl
    | ok a =>
      simp only
      cases f a t with
      | mk r e t => cases r <;> simp [List.append_assoc]

instance : Monad (Eval σ) where
  pure a := lift (.ok a)
  bind := andThen

instance : LawfulMonad (Eval σ) :=
  LawfulMonad.mk' _ andThen_lift_ok lift_ok_andThen andThen_assoc

/-- Ends with an error. -/
def fail (e : RenderError) : Eval σ α := lift (.error e)

/-- Records an event. -/
def note (e : Event) : Eval σ Unit := fun s => ⟨.ok (), [e], s⟩

/-- Hands an error on as a result. -/
def attempt (x : Eval σ α) : Eval σ (Except RenderError α) := fun s =>
  let o := x s
  ⟨.ok o.result, o.events, o.state⟩

/-- Replaces errors. -/
def mapError (f : RenderError → RenderError) (x : Eval σ α) : Eval σ α := fun s =>
  let o := x s
  ⟨o.result.mapError f, o.events, o.state⟩

/-- The texts of a list, one after the other. -/
def concat (f : α → Eval σ Text) : List α → Eval σ Text
  | [] => pure []
  | a :: as => do
    let t ← f a
    let rest ← concat f as
    pure (t ++ rest)

end Eval
end MailMerge
