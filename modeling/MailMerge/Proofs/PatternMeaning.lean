import MailMerge.Proofs.ItemPaths

/-!
# What a path means

A path is written as a name and parts behind it, which are names of members and positions of
elements in brackets. Taken from left to right they lead from a document to a value, or to none as
soon as one of them does not apply. A lookup takes its segments for the same parts, with one
exception: a number in brackets that is no index since it is beyond the limit is looked up as the
name of a member, brackets included.
-/

namespace MailMerge

namespace Pattern

/-- A part of a path: the name of a member, or the digits of the position of an element. -/
inductive Part where
  | name (n : Text)
  | position (digits : Text)
deriving DecidableEq, Repr

namespace Part

/-- A part as a segment. -/
def text : Part → Text
  | .name n => n
  | .position digits => '[' :: (digits ++ [']'])

/-- Whether a part is written as the lexer wants it. -/
def IsWritten : Part → Prop
  | .name n => Token.isPlainName n = true
  | .position digits => Text.isNumeral digits = true

/-- Whether a part is not a position beyond the limit. -/
def InReach : Part → Prop
  | .name _ => True
  | .position digits => Text.numeralValue digits < indexLimit

/-- The value that a part selects: a name that of a member, a position that of an element. -/
def select (document : Json) : Part → Option Json
  | .name n =>
    match document with
    | .object members => Json.member? n members
    | _ => none
  | .position digits =>
    match document with
    | .array items => items[Text.numeralValue digits]?
    | _ => none

/-- The value that a lookup takes: a position beyond the limit is taken for a name. -/
def taken (document : Json) (part : Part) : Option Json :=
  match part with
  | .name n => select document (.name n)
  | .position digits =>
    if Text.numeralValue digits < indexLimit then select document (.position digits)
    else select document (.name (Part.position digits).text)

end Part

/-- The parts of what follows the first name of a path. -/
inductive StepsOf : Text → List Part → Prop where
  | nil : StepsOf [] []
  | property {mark name rest : Text} {parts : List Part} (hm : mark = ['-', '>'] ∨ mark = ['.'])
      (hn : Token.isPlainName name = true) (hr : StepsOf rest parts) :
      StepsOf (mark ++ (name ++ rest)) (.name name :: parts)
  | index {digits rest : Text} {parts : List Part} (hd : Text.isNumeral digits = true)
      (hr : StepsOf rest parts) :
      StepsOf ('[' :: (digits ++ ']' :: rest)) (.position digits :: parts)

/-- The parts of a path. -/
inductive PartsOf : Text → List Part → Prop where
  | mk {c : Char} {name steps : Text} {parts : List Part} (hc : Token.isWordStart c = true)
      (hn : name.all Token.isWordChar = true) (hs : StepsOf steps parts) :
      PartsOf (c :: (name ++ steps)) (.name (c :: name) :: parts)

/-! ### Paths and their parts -/

theorem Steps.exists_parts {steps : Text} (h : Steps steps) : ∃ parts, StepsOf steps parts := by
  induction h with
  | nil => exact ⟨[], .nil⟩
  | property hm hn _ ih =>
    obtain ⟨parts, hr⟩ := ih
    exact ⟨_, .property hm hn hr⟩
  | index hd _ ih =>
    obtain ⟨parts, hr⟩ := ih
    exact ⟨_, .index hd hr⟩

theorem IsPath.exists_parts {p : Text} (h : IsPath p) : ∃ parts, PartsOf p parts := by
  cases h with
  | mk hc hn hs =>
    obtain ⟨parts, hr⟩ := hs.exists_parts
    exact ⟨_, .mk hc hn hr⟩

theorem StepsOf.isSteps {steps : Text} {parts : List Part} (h : StepsOf steps parts) :
    Steps steps := by
  induction h with
  | nil => exact .nil
  | property hm hn _ ih => exact .property hm hn ih
  | index hd _ ih => exact .index hd ih

/-- The segments of steps are their parts. -/
theorem StepsOf.segments_eq {steps : Text} {parts : List Part} (h : StepsOf steps parts) :
    segments steps = parts.map Part.text ∧ ∀ part ∈ parts, part.IsWritten := by
  induction h with
  | nil => exact ⟨rfl, nofun⟩
  | property hm hn hr ih =>
    rw [segments_property hm hn hr.isSteps.isContinuation, ih.1]
    exact ⟨rfl, List.forall_mem_cons.2 ⟨hn, ih.2⟩⟩
  | index hd hr ih =>
    rw [segments_index hd, ih.1]
    exact ⟨rfl, List.forall_mem_cons.2 ⟨hd, ih.2⟩⟩

/-- The segments of a path are its parts. -/
theorem PartsOf.segments_eq {p : Text} {parts : List Part} (h : PartsOf p parts) :
    segments p = parts.map Part.text ∧ ∀ part ∈ parts, part.IsWritten := by
  cases h with
  | @mk c name steps parts hc hn hs =>
    have hname : Token.isPlainName (c :: name) = true := by
      simp only [Token.isPlainName, List.isEmpty_cons, Bool.not_false, Bool.true_and, List.all_cons,
        Token.isWordChar_of_isWordStart hc, hn]
    obtain ⟨hsteps, hparts⟩ := hs.segments_eq
    rw [← List.cons_append, segments_append hs.isSteps.isContinuation, segments_name hname, hsteps]
    exact ⟨rfl, List.forall_mem_cons.2 ⟨hname, hparts⟩⟩

/-! ### What is selected -/

namespace Part

/-- A lookup takes a segment for the part that is written. -/
theorem select_text {part : Part} (h : part.IsWritten) (document : Json) :
    Record.select document part.text = taken document part := by
  cases part with
  | name n =>
    simp only [taken, text, Record.select, indexOf?_name h]
    cases document <;> rfl
  | position digits =>
    by_cases hd : Text.numeralValue digits < indexLimit
    · simp only [taken, text, Record.select, indexOf?_brackets, index?_numeral h, if_pos hd]
      cases document <;> rfl
    · simp only [taken, text, Record.select, indexOf?_brackets, index?_numeral h, if_neg hd]
      cases document <;> rfl

theorem taken_of_inReach {part : Part} (h : part.InReach) (document : Json) :
    taken document part = select document part := by
  cases part with
  | name n => rfl
  | position digits => exact if_pos h

/-- A position beyond the limit leads to a member of an object. -/
theorem taken_beyond {digits : Text} (h : indexLimit ≤ Text.numeralValue digits)
    (document : Json) : taken document (.position digits) =
      select document (.name ('[' :: (digits ++ [']']))) :=
  if_neg (Nat.not_lt.2 h)

end Part

/-- On the way along the parts from a document, a position beyond the limit is met where it is not
without effect. -/
inductive Strays : Json → List Part → Prop where
  /-- An object has a member of that name, brackets included, and the lookup goes on in it. -/
  | member {members : List (Text × Json)} {digits : Text} {parts : List Part} {v w : Json}
      (hd : indexLimit ≤ Text.numeralValue digits)
      (hv : Json.member? ('[' :: (digits ++ [']'])) members = some v)
      (hw : parts.foldlM Part.taken v = some w) :
      Strays (.object members) (.position digits :: parts)
  /-- An array has that many elements, and the path goes on in the one at the position. -/
  | element {items : List Json} {digits : Text} {parts : List Part} {v w : Json}
      (hd : indexLimit ≤ Text.numeralValue digits) (hv : items[Text.numeralValue digits]? = some v)
      (hw : parts.foldlM Part.select v = some w) :
      Strays (.array items) (.position digits :: parts)
  /-- It is met later. -/
  | later {document v : Json} {part : Part} {parts : List Part} (hp : part.InReach)
      (hv : part.select document = some v) (h : Strays v parts) : Strays document (part :: parts)

theorem not_strays_of_inReach {parts : List Part} (h : ∀ part ∈ parts, part.InReach)
    (document : Json) : ¬ Strays document parts := by
  intro hs
  induction hs with
  | member hd _ _ => exact absurd (h _ List.mem_cons_self) (Nat.not_lt.2 hd)
  | element hd _ _ => exact absurd (h _ List.mem_cons_self) (Nat.not_lt.2 hd)
  | later _ _ _ ih => exact ih fun part hp => h part (List.mem_cons_of_mem _ hp)

section Beyond

variable {digits : Text} (hd : indexLimit ≤ Text.numeralValue digits) (parts : List Part)
include hd

/-- At an object the path selects nothing, so the lookup must find nothing. -/
theorem strays_object_iff (members : List (Text × Json)) :
    Strays (.object members) (.position digits :: parts) ↔
      ∃ w, (Part.position digits :: parts).foldlM Part.taken (.object members) = some w := by
  rw [List.foldlM_cons, Part.taken_beyond hd]
  constructor
  · intro h
    cases h with
    | @member _ _ _ v w _ hv hw => exact ⟨w, Option.bind_eq_some_iff.2 ⟨v, hv, hw⟩⟩
    | later hp _ _ => exact absurd hp (Nat.not_lt.2 hd)
  · rintro ⟨w, hw⟩
    obtain ⟨v, hv, hw⟩ := Option.bind_eq_some_iff.1 hw
    exact .member hd hv hw

/-- At an array the lookup finds nothing, so the path must select nothing. -/
theorem strays_array_iff (items : List Json) :
    Strays (.array items) (.position digits :: parts) ↔
      ∃ w, (Part.position digits :: parts).foldlM Part.select (.array items) = some w := by
  rw [List.foldlM_cons]
  constructor
  · intro h
    cases h with
    | @element _ _ _ v w _ hv hw => exact ⟨w, Option.bind_eq_some_iff.2 ⟨v, hv, hw⟩⟩
    | later hp _ _ => exact absurd hp (Nat.not_lt.2 hd)
  · rintro ⟨w, hw⟩
    obtain ⟨v, hv, hw⟩ := Option.bind_eq_some_iff.1 hw
    exact .element hd hv hw

/-- Behind a position beyond the limit the lookup and the path agree only in finding nothing. -/
theorem agree_beyond_iff (document : Json) :
    (Part.position digits :: parts).foldlM Part.taken document =
        (Part.position digits :: parts).foldlM Part.select document ↔
      ¬ Strays document (.position digits :: parts) := by
  have hnone : ∀ x : Option Json, x = none ↔ ¬ ∃ w, x = some w := fun x => by
    rw [Option.eq_none_iff_forall_ne_some, not_exists]
  cases document with
  | object members =>
    rw [strays_object_iff hd]
    exact hnone _
  | array items =>
    have htaken : (Part.position digits :: parts).foldlM Part.taken (.array items) = none := by
      rw [List.foldlM_cons, Part.taken_beyond hd]
      rfl
    rw [strays_array_iff hd, htaken, eq_comm]
    exact hnone _
  | _ =>
    rw [List.foldlM_cons, Part.taken_beyond hd]
    refine ⟨fun _ hs => ?_, fun _ => rfl⟩
    cases hs with
    | later hp _ _ => exact absurd hp (Nat.not_lt.2 hd)

end Beyond

/-- The lookup follows the path exactly if it does not stray, by induction on the parts. -/
theorem agree_iff (parts : List Part) (document : Json) :
    parts.foldlM Part.taken document = parts.foldlM Part.select document ↔
      ¬ Strays document parts := by
  induction parts generalizing document with
  | nil => exact ⟨fun _ => nofun, fun _ => rfl⟩
  | cons part parts ih =>
    by_cases hp : part.InReach
    · rw [List.foldlM_cons, List.foldlM_cons, Part.taken_of_inReach hp]
      cases hv : part.select document with
      | none =>
        refine ⟨fun _ hs => ?_, fun _ => rfl⟩
        cases hs with
        | member hd _ _ => exact absurd hp (Nat.not_lt.2 hd)
        | element hd _ _ => exact absurd hp (Nat.not_lt.2 hd)
        | later _ hv' _ =>
          rw [hv] at hv'
          cases hv'
      | some v =>
        refine (ih v).trans (not_congr ⟨.later hp hv, fun hs => ?_⟩)
        cases hs with
        | member hd _ _ => exact absurd hp (Nat.not_lt.2 hd)
        | element hd _ _ => exact absurd hp (Nat.not_lt.2 hd)
        | later _ hv' hs =>
          rw [hv] at hv'
          cases hv'
          exact hs
    · cases part with
      | name n => exact absurd trivial hp
      | position digits => exact agree_beyond_iff (Nat.not_lt.1 hp) parts document

end Pattern

namespace Record

open Pattern

theorem resolve_parts {p : Text} {parts : List Part} (h : PartsOf p parts) (document : Json) :
    resolve document p = parts.foldlM Part.taken document := by
  obtain ⟨hsegments, hparts⟩ := h.segments_eq
  rw [resolve, hsegments]
  clear h hsegments
  induction parts generalizing document with
  | nil => rfl
  | cons part parts ih =>
    obtain ⟨hpart, hparts⟩ := List.forall_mem_cons.1 hparts
    rw [List.map_cons, List.foldlM_cons, List.foldlM_cons, Part.select_text hpart]
    exact bind_congr fun v => ih v hparts

/-- Every path falls into parts. A lookup takes them from left to right, and comes to what they
select, or to nothing where they select nothing, exactly if it does not stray: if no position beyond
the limit is met at an object that has a member of that name, brackets included, or at an array with
so many elements. In particular it does so where all positions are below the limit. -/
theorem resolve_follows_path {p : Text} (hp : IsWritten p) :
    (∃ parts, PartsOf p parts) ∧
      ∀ parts, PartsOf p parts → ∀ document,
        resolve document p = parts.foldlM Part.taken document ∧
        (resolve document p = parts.foldlM Part.select document ↔ ¬ Strays document parts) ∧
        ((∀ part ∈ parts, part.InReach) →
          resolve document p = parts.foldlM Part.select document) := by
  refine ⟨hp.isPath.exists_parts, fun parts hparts document => ?_⟩
  have hiff := agree_iff parts document
  rw [← resolve_parts hparts document] at hiff
  exact ⟨resolve_parts hparts document, hiff,
    fun h => hiff.2 (not_strays_of_inReach h document)⟩

/-- Leading zeros, both separators, and an element of an array in an array. -/
theorem resolve_city :
    let document : Json := .object [("user".toList,
      .array [.null, .array [.object [("city".toList, .string "Porto".toList)]]])]
    let parts : List Part := [.name "user".toList, .position "01".toList, .position "0".toList,
      .name "city".toList]
    IsWritten "user[01][0].city".toList ∧ PartsOf "user[01][0].city".toList parts ∧
      parts.foldlM Part.select document = some (.string "Porto".toList) ∧
      resolve document "user[01][0].city".toList = some (.string "Porto".toList) := by
  intro document parts
  have hw : IsWritten "user[01][0].city".toList :=
    ⟨"user[01][0].city".toList, 1, _, rfl, _, List.mem_singleton_self _, rfl⟩
  have hparts : PartsOf "user[01][0].city".toList parts :=
    @PartsOf.mk 'u' "ser".toList _ _ rfl rfl
      (@StepsOf.index "01".toList _ _ rfl (@StepsOf.index "0".toList _ _ rfl
        (@StepsOf.property ['.'] "city".toList _ _ (.inr rfl) rfl .nil)))
  have hreach : ∀ part ∈ parts, part.InReach := by
    simp [parts, Part.InReach]
    decide
  exact ⟨hw, hparts, rfl, ((resolve_follows_path hw).2 parts hparts document).2.2 hreach⟩

/-- A number in brackets that is too large for an index selects a member of an object. -/
theorem number_selects_member : ¬ ∀ (p : Text) (parts : List Part) (document : Json),
    IsWritten p → PartsOf p parts → resolve document p = parts.foldlM Part.select document := by
  intro h
  let number : Text := "18446744073709551616".toList
  let document : Json := .object [(['a'], .object [('[' :: (number ++ [']']), .integer 1)])]
  have hw : IsWritten "a[18446744073709551616]".toList :=
    ⟨"a[18446744073709551616]".toList, 1, _, rfl, _, List.mem_singleton_self _, rfl⟩
  have hparts : PartsOf "a[18446744073709551616]".toList [.name ['a'], .position number] :=
    @PartsOf.mk 'a' [] _ _ rfl rfl (@StepsOf.index number _ _ rfl .nil)
  have hcode : resolve document "a[18446744073709551616]".toList = some (.integer 1) := rfl
  have hmeaning : [Part.name ['a'], .position number].foldlM Part.select document = none := rfl
  have heq := h _ _ document hw hparts
  rw [hcode, hmeaning] at heq
  cases heq

end Record
end MailMerge
