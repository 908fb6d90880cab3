import MailMerge.Proofs.PathShape
import MailMerge.Scope

/-!
Loop scopes are a lexical environment: the innermost scope whose index is a pattern, or whose item
is its first segment, decides what the pattern means, and what follows the item is looked up in the
element by the record getter itself. The scopes between hand a remainder on unchanged, since it
begins with an arrow, a point or a bracket and none of their names does.
-/

namespace MailMerge.Scope

/-! ### The innermost binding -/

/-- The names of a scope are single words. -/
structure HasPlainNames (s : Scope) : Prop where
  item : Token.isPlainName s.item = true
  index : ∀ i ∈ s.index, Token.isPlainName i = true

/-- Whether a pattern refers to a scope. -/
def binds (pattern : Text) (s : Scope) : Bool :=
  s.index = some pattern || (Pattern.segments pattern).head? = some s.item

/-- What a pattern means under scopes, the innermost one first, if the innermost one that it refers
to decides and a remainder is looked up in the element by the root getter. -/
def lexical (scopes : List Scope) (root : Getter) : Getter := fun data pattern =>
  match scopes.find? (binds pattern) with
  | none => root data pattern
  | some s =>
    if s.index = some pattern then .ok s.binding.describe
    else
      let rest := pattern.drop s.item.length
      if rest.isEmpty then
        if s.kind = .missing then .error (.notExists pattern)
        else .ok (Utf8.decodeLossy s.element, s.kind)
      else if isContainer s.kind then root s.element rest
      else .error (.notExists pattern)

/-- Scopes hand a remainder on unchanged. -/
theorem route_continuation (data : Bytes) {rest : Text}
    (hr : Pattern.isContinuation rest = true) :
    ∀ {scopes : List Scope}, (∀ s ∈ scopes, s.HasPlainNames) →
      route scopes data rest = .ask data rest
  | [], _ => rfl
  | s :: outer, h => by
    have hs := h s List.mem_cons_self
    have hi : s.index ≠ some rest := by
      intro he
      have := Pattern.ne_name_append hr (hs.index rest he) []
      rw [List.append_nil] at this
      exact this rfl
    rw [route, if_neg hi, Pattern.afterItem?_continuation hr hs.item]
    exact route_continuation data hr fun t ht => h t (List.mem_cons_of_mem s ht)

/-- A path refers to a scope with an index of its own or with its first name as item. -/
theorem binds_name {name steps : Text} (hn : Token.isPlainName name = true)
    (hs : Pattern.isContinuation steps = true) (s : Scope) :
    binds (name ++ steps) s =
      (decide (s.index = some (name ++ steps)) || decide (name = s.item)) := by
  unfold binds
  rw [Pattern.segments_append hs, Pattern.segments_name hn]
  simp

/-- What the innermost scope makes of a path. -/
theorem route_path {s : Scope} {outer : List Scope} (h : ∀ t ∈ s :: outer, t.HasPlainNames)
    (data : Bytes) {name steps : Text} (hn : Token.isPlainName name = true)
    (hs : Pattern.isContinuation steps = true) :
    route (s :: outer) data (name ++ steps) =
      if s.index = some (name ++ steps) then .found s.binding.describe.1 s.binding.describe.2
      else if name = s.item then
        if steps = [] then
          if s.kind = .missing then .absent (name ++ steps)
          else .found (Utf8.decodeLossy s.element) s.kind
        else if isContainer s.kind then .ask s.element steps else .absent (name ++ steps)
      else route outer data (name ++ steps) := by
  have houter : ∀ t ∈ outer, t.HasPlainNames := fun t ht => h t (List.mem_cons_of_mem s ht)
  rw [route, Pattern.afterItem?_name hn hs (h s List.mem_cons_self).item]
  by_cases hi : s.index = some (name ++ steps)
  · rw [if_pos hi, if_pos hi]
  · rw [if_neg hi, if_neg hi]
    by_cases hitem : name = s.item
    · rw [if_pos hitem, if_pos hitem]
      cases steps with
      | nil => rfl
      | cons c r => simp only [route_continuation s.element hs houter, reduceCtorEq, if_false]
    · rw [if_neg hitem, if_neg hitem]

/-- The getter through a stack of scopes is the lexical reading of the stack. -/
theorem through_eq_lexical (root : Getter) {scopes : List Scope}
    (hscopes : ∀ s ∈ scopes, s.HasPlainNames) (data : Bytes) {pattern : Text}
    (hp : Pattern.IsWritten pattern) :
    through scopes root data pattern = lexical scopes root data pattern := by
  obtain ⟨name, steps, rfl, hn, hs, -⟩ := hp.isPath.split
  have hc := hs.isContinuation
  induction scopes with
  | nil => rfl
  | cons s outer ih =>
    have hplain := hscopes s List.mem_cons_self
    have houter : ∀ t ∈ outer, t.HasPlainNames := fun t ht => hscopes t (List.mem_cons_of_mem s ht)
    have hout := ih houter
    unfold through lexical at hout ⊢
    rw [route_path hscopes data hn hc, List.find?_cons, binds_name hn hc]
    by_cases hi : s.index = some (name ++ steps)
    · -- the index of the innermost scope
      simp [hi]
    · by_cases hitem : name = s.item
      · -- its item, with or without steps
        subst hitem
        cases steps with
        | nil =>
          rw [List.append_nil] at hi ⊢
          by_cases hk : s.kind = .missing <;> simp [hk, hi]
        | cons c r => by_cases hk : isContainer s.kind = true <;> simp [hk, hi]
      · -- neither of them: the scopes outside decide
        simp only [hi, hitem, decide_false, Bool.or_self, if_false]
        exact hout

/-- The remainder of `x->y` passes by an index `x` and an item `y` outside. -/
theorem remainder_passes_outer_names :
    let scopes : List Scope :=
      [⟨"x".toList, some "y".toList, Utf8.encode "[]".toList, .array, .position 2⟩,
        ⟨"y".toList, some "x".toList, Utf8.encode "a".toList, .string, .key "k".toList⟩]
    let root : Getter := fun data pattern => .ok (Utf8.decodeLossy data ++ pattern, .string)
    (∀ s ∈ scopes, s.HasPlainNames) ∧ Pattern.IsWritten "x->y".toList ∧
      through scopes root [] "x->y".toList = .ok ("[]->y".toList, .string) := by
  intro scopes root
  have hscopes : ∀ s ∈ scopes, s.HasPlainNames := by
    intro s hs
    rcases List.mem_cons.mp hs with rfl | hs
    · exact ⟨rfl, by decide⟩
    · rw [List.mem_singleton.mp hs]
      exact ⟨rfl, by decide⟩
  have hp : Pattern.IsWritten "x->y".toList :=
    ⟨"x->y".toList, 1, [⟨.path "x->y".toList, 1⟩], rfl, _, List.mem_singleton.mpr rfl, rfl⟩
  exact ⟨hscopes, hp, (through_eq_lexical root hscopes [] hp).trans rfl⟩

end MailMerge.Scope
