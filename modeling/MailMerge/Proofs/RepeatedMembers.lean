import Mathlib.Data.List.Basic
import Mathlib.Data.List.Induction
import MailMerge.Proofs.JsonReading

/-!
# Documents with repeated members

A document as it is written may repeat the name of a member, and the reader keeps such a name at its
first place, with its last value. To say so, `readWritten` reads a document with all its members,
and `unite` unites those of one name, throughout the document; reading is the one after the other.
-/

namespace MailMerge

namespace Json

/-! ### Uniting members -/

/-- Every name once, at its first place, with its last value. -/
def lastValues (ms : List (Text × Json)) : List (Text × Json) :=
  (ms.map Prod.fst).eraseDups.filterMap fun n => (member? n ms.reverse).map fun v => (n, v)

mutual

/-- The document with repeated members united, in all its parts. -/
def unite : Json → Json
  | .null => .null
  | .bool b => .bool b
  | .integer i => .integer i
  | .real x => .real x
  | .string t => .string t
  | .array items => .array (uniteItems items)
  | .object members => .object (lastValues (uniteMembers members))

/-- Elements with repeated members united. -/
def uniteItems : List Json → List Json
  | [] => []
  | v :: vs => v.unite :: uniteItems vs

/-- Members with repeated members united in their values. -/
def uniteMembers : List (Text × Json) → List (Text × Json)
  | [] => []
  | (n, v) :: ms => (n, v.unite) :: uniteMembers ms

end

theorem uniteItems_eq (vs : List Json) : uniteItems vs = vs.map unite := by
  induction vs with
  | nil => rfl
  | cons v vs ih => rw [uniteItems, ih, List.map_cons]

theorem uniteMembers_eq (ms : List (Text × Json)) :
    uniteMembers ms = ms.map fun m => (m.1, m.2.unite) := by
  induction ms with
  | nil => rfl
  | cons m ms ih => rw [uniteMembers, ih, List.map_cons]

/-- The members of a list in which every name is set in turn. -/
def setAll (ms : List (Text × Json)) : List (Text × Json) :=
  ms.foldl (fun done m => insert m.1 m.2 done) []

theorem setAll_concat (ms : List (Text × Json)) (m : Text × Json) :
    setAll (ms ++ [m]) = insert m.1 m.2 (setAll ms) := by
  rw [setAll, List.foldl_append]
  rfl

/-- The names that are set stand in the order in which they come first. -/
theorem names_setAll (ms : List (Text × Json)) :
    (setAll ms).map Prod.fst = (ms.map Prod.fst).eraseDups := by
  induction ms using List.reverseRecOn with
  | nil => rfl
  | append_singleton ms m ih =>
    have hmem : m.1 ∈ (setAll ms).map Prod.fst ↔ m.1 ∈ ms.map Prod.fst := by
      rw [ih, List.mem_eraseDups]
    rw [setAll_concat, names_insert, List.map_append, List.eraseDups_append, ← ih]
    simp only [hmem, List.map_cons, List.map_nil]
    split
    · next h => simp [List.removeAll, h]
    · next h => simp [List.removeAll, h, List.eraseDups_cons]

/-- A name that is set has its last value. -/
theorem member?_setAll (name : Text) (ms : List (Text × Json)) :
    member? name (setAll ms) = member? name ms.reverse := by
  induction ms using List.reverseRecOn with
  | nil => rfl
  | append_singleton ms m ih =>
    rw [setAll_concat, List.reverse_append, List.reverse_singleton, List.singleton_append, member?]
    split
    · next h => rw [h, member?_insert_self]
    · next h => rw [member?_insert_of_ne (Ne.symm h), ih]

/-- Members with distinct names are found under their names, one after the other. -/
theorem filterMap_member? {ms : List (Text × Json)} (h : (ms.map Prod.fst).Nodup) :
    (ms.map Prod.fst).filterMap (fun n => (member? n ms).map fun v => (n, v)) = ms := by
  induction ms with
  | nil => rfl
  | cons m ms ih =>
    rw [List.map_cons, List.nodup_cons] at h
    have htail : ∀ n ∈ ms.map Prod.fst, member? n (m :: ms) = member? n ms := by
      rintro n hn
      rw [member?, if_neg]
      rintro rfl
      exact h.1 hn
    rw [List.map_cons, List.filterMap_cons, member?, if_pos rfl]
    refine congrArg (m :: ·) (.trans (List.filterMap_congr fun n hn => ?_) (ih h.2))
    rw [htail n hn]

theorem nodup_names_setAll (ms : List (Text × Json)) : ((setAll ms).map Prod.fst).Nodup := by
  induction ms using List.reverseRecOn with
  | nil => exact List.nodup_nil
  | append_singleton ms m ih =>
    rw [setAll_concat]
    exact nodup_insert ih

theorem setAll_eq_lastValues (ms : List (Text × Json)) : setAll ms = lastValues ms := by
  have h := filterMap_member? (nodup_names_setAll ms)
  rw [names_setAll] at h
  rw [← h]
  exact List.filterMap_congr fun n _ => by rw [member?_setAll]

/-! ### Reading all members -/

/-- The members of an object from one of them on, repeated ones included; `done` holds those before,
last one first. -/
def writtenMembers (item : Bytes → Except Fault (Json × Bytes)) :
    Nat → List (Text × Json) → Bytes → Except Fault (List (Text × Json) × Bytes)
  | 0, _, r => stop .endOfObject r
  | fuel + 1, done, b => do
    let (m, r) ← member item b
    match skipSpace r with
    | [] => stop .endOfObject []
    | 0x7D :: r => .ok ((m :: done).reverse, r)
    | 0x2C :: r =>
      match skipSpace r with
      | [] => stop .endOfValue []
      | 0x7D :: r => stop .trailingComma r
      | r => writtenMembers item fuel (m :: done) r
    | r => stopAt .expectedCommaOrBrace r

/-- An object after its opening brace, with all its members. -/
def writtenBody (item : Bytes → Except Fault (Json × Bytes)) (b : Bytes) :
    Except Fault (Json × Bytes) :=
  match skipSpace b with
  | [] => stop .endOfObject []
  | 0x7D :: r => .ok (.object [], r)
  | r => (writtenMembers item (r.length + 1) [] r).map fun (ms, r) => (.object ms, r)

/-- A document with all its members, after any blanks. -/
def writtenValue (depth : Nat) (b : Bytes) : Except Fault (Json × Bytes) :=
  match skipSpace b with
  | [] => stop .endOfValue []
  | c :: r =>
    if c = 0x6E then (expectWord [0x75, 0x6C, 0x6C] r).map fun r => (.null, r)
    else if c = 0x74 then (expectWord [0x72, 0x75, 0x65] r).map fun r => (.bool true, r)
    else if c = 0x66 then (expectWord [0x61, 0x6C, 0x73, 0x65] r).map fun r => (.bool false, r)
    else if c = 0x2D then number false r
    else if isDigit c then number true (c :: r)
    else if c = 0x22 then (stringBody r).map fun (t, r) => (.string t, r)
    else if c = 0x5B then
      match depth with
      | 0 => stop .tooDeep r
      | depth + 1 => arrayBody (writtenValue depth) r
    else if c = 0x7B then
      match depth with
      | 0 => stop .tooDeep r
      | depth + 1 => writtenBody (writtenValue depth) r
    else stop .expectedValue r
termination_by structural depth

/-- The document that the bytes hold, with all its members. -/
def readWritten (source : Bytes) : Except Fault Json := do
  let (v, r) ← writtenValue depthLimit source
  match skipSpace r with
  | [] => .ok v
  | r => stopAt .trailingCharacters r

/-! ### Reading is uniting what is written -/

/-- A reader that gives what another one gives, with repeated members united. -/
def Unites (item written : Bytes → Except Fault (Json × Bytes)) : Prop :=
  ∀ b, item b = (written b).map fun p => (p.1.unite, p.2)

section Loops

variable {item written : Bytes → Except Fault (Json × Bytes)} (h : Unites item written)
include h

/-- The elements before and after uniting, those already read included. -/
theorem items_unite (fuel : Nat) (done : List Json) (b : Bytes) :
    items item fuel (done.map unite) b =
      (items written fuel done b).map fun p => (p.1.map unite, p.2) := by
  induction fuel generalizing done b with
  | zero => rfl
  | succ fuel ih =>
    rw [items, items, h b]
    cases written b with
    | error e => rfl
    | ok p =>
      obtain ⟨v, r⟩ := p
      simp only [Except.map, bind, Except.bind]
      split
      · rfl
      · simp
      · split
        · rfl
        · rfl
        · exact ih (v :: done) _
      · rfl

theorem member_unite (b : Bytes) :
    member item b = (member written b).map fun p => ((p.1.1, p.1.2.unite), p.2) := by
  unfold member
  split
  · next s =>
    cases stringBody s with
    | error e => rfl
    | ok p =>
      simp only [bind, Except.bind]
      split
      · rfl
      · next r _ =>
        rw [h r]
        cases written r with
        | error e => rfl
        | ok q => rfl
      · rfl
  · rfl

/-- The reader sets what it has read member by member, as if all of it were set at the end. -/
theorem members_unite (fuel : Nat) (done : List (Text × Json)) (b : Bytes) :
    members item fuel (setAll (uniteMembers done.reverse)) b =
      (writtenMembers written fuel done b).map fun p => (setAll (uniteMembers p.1), p.2) := by
  induction fuel generalizing done b with
  | zero => rfl
  | succ fuel ih =>
    rw [members, writtenMembers, member_unite h b]
    cases member written b with
    | error e => rfl
    | ok p =>
      obtain ⟨⟨n, v⟩, r⟩ := p
      have hset : insert n v.unite (setAll (uniteMembers done.reverse)) =
          setAll (uniteMembers ((n, v) :: done).reverse) := by
        rw [List.reverse_cons, uniteMembers_eq, uniteMembers_eq, List.map_append]
        exact (setAll_concat _ (n, v.unite)).symm
      simp only [Except.map, bind, Except.bind, hset]
      generalize skipSpace r = s
      split
      · rfl
      · rfl
      · next t =>
        have hrec := ih ((n, v) :: done) (skipSpace t)
        -- with the comma read, one case split serves both readers
        change _ = Except.map _ (match skipSpace t with
          | [] => stop .endOfValue []
          | 0x7D :: r => stop .trailingComma r
          | r => writtenMembers written fuel ((n, v) :: done) r)
        generalize skipSpace t = u at hrec ⊢
        split
        · rfl
        · rfl
        · simpa only using hrec
      · simp [stopAt]

theorem arrayBody_unite : Unites (arrayBody item) (arrayBody written) := by
  intro b
  unfold arrayBody
  generalize skipSpace b = s
  split
  · rfl
  · rfl
  · have hi := items_unite h (s.length + 1) [] s
    rw [List.map_nil] at hi
    rw [hi]
    cases items written (s.length + 1) [] s with
    | error e => rfl
    | ok p => simp only [Except.map, unite, uniteItems_eq]

theorem objectBody_unite : Unites (objectBody item) (writtenBody written) := by
  intro b
  unfold objectBody writtenBody
  generalize skipSpace b = s
  split
  · rfl
  · rfl
  · have hm := members_unite h (s.length + 1) [] s
    change members item (s.length + 1) [] s = _ at hm
    simp only [hm]
    cases writtenMembers written (s.length + 1) [] s with
    | error e => rfl
    | ok p => simp only [Except.map, unite, setAll_eq_lastValues]

end Loops

/-- What holds neither arrays nor objects stays as it is. -/
theorem unite_map {α : Type} {f : α → Json × Bytes} (hf : ∀ a, (f a).1.unite = (f a).1)
    (x : Except Fault α) : x.map f = (x.map f).map fun p => (p.1.unite, p.2) := by
  cases x with
  | error e => rfl
  | ok a => simp only [Except.map, hf]

theorem unite_number {positive : Bool} {b : Bytes} :
    number positive b = (number positive b).map fun p => (p.1.unite, p.2) := by
  cases hn : number positive b with
  | error e => rfl
  | ok p =>
    obtain ⟨v, r⟩ := p
    obtain ⟨-, hv⟩ := number_read hn 0 0
    cases hv <;> rfl

/-- Documents are united, if their elements and the values of their members are. -/
theorem value_unite_step {n : Nat} (hrec : ∀ m, n = m + 1 → Unites (value m) (writtenValue m)) :
    Unites (value n) (writtenValue n) := by
  intro b
  rw [value.eq_def, writtenValue.eq_def]
  generalize skipSpace b = s
  split
  · rfl
  next c r =>
  dsimp only
  split
  · exact unite_map (fun _ => rfl) _
  split
  · exact unite_map (fun _ => rfl) _
  split
  · exact unite_map (fun _ => rfl) _
  split
  · exact unite_number
  split
  · exact unite_number
  split
  · exact unite_map (fun _ => rfl) _
  split
  · cases n with
    | zero => rfl
    | succ m => exact arrayBody_unite (hrec m rfl) r
  split
  · cases n with
    | zero => rfl
    | succ m => exact objectBody_unite (hrec m rfl) r
  · rfl

theorem value_unite (n : Nat) : Unites (value n) (writtenValue n) := by
  induction n with
  | zero => exact value_unite_step fun m hm => absurd hm (Nat.succ_ne_zero m).symm
  | succ n ih =>
    refine value_unite_step fun m hm => ?_
    cases hm
    exact ih

/-- Reading is uniting the repeated members of what is written. -/
theorem read_eq (b : Bytes) : read b = (readWritten b).map unite := by
  rw [read, readWritten, value_unite depthLimit b]
  cases writtenValue depthLimit b with
  | error e => rfl
  | ok p =>
    obtain ⟨v, r⟩ := p
    simp only [Except.map, bind, Except.bind]
    generalize skipSpace r = s
    split
    · rfl
    · simp [stopAt]

end Json
end MailMerge
