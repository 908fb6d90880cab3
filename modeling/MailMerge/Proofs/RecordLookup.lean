import MailMerge.Proofs.JsonRoundTrip
import MailMerge.Proofs.PathShape
import MailMerge.Record

/-!
# Lookups in records and in what they hand out

A pattern is resolved in two parts: first a part of it, then the rest in what was found. An array
or an object that was found is handed out as a written document, and a lookup in that document
finds what the whole pattern finds in the record.
-/

namespace MailMerge

namespace Json

theorem mem_of_member? {name : Text} {ms : List (Text × Json)} {v : Json}
    (h : member? name ms = some v) : (name, v) ∈ ms := by
  induction ms with
  | nil => cases h
  | cons m ms ih =>
    obtain ⟨n, w⟩ := m
    rw [member?] at h
    split at h
    · next hn =>
      cases h
      rw [hn]
      exact List.mem_cons_self
    · exact List.mem_cons_of_mem _ (ih h)

end Json

namespace Record

open Json

/-! ### Resolving patterns -/

/-- What a segment selects is an element or the value of a member. -/
theorem select_cases {d v : Json} {segment : Text} (h : select d segment = some v) :
    (∃ items, d = .array items ∧ v ∈ items) ∨ ∃ ms name, d = .object ms ∧ (name, v) ∈ ms := by
  unfold select at h
  split at h
  · exact .inl ⟨_, rfl, List.mem_of_getElem? h⟩
  · exact .inr ⟨_, segment, rfl, mem_of_member? h⟩
  · cases h

theorem readable_select {size n : Nat} {d v : Json} {segment : Text} (hd : Readable size n d)
    (h : select d segment = some v) : Readable size n v := by
  rcases select_cases h with ⟨items, rfl, hv⟩ | ⟨ms, name, rfl, hv⟩
  · cases hd with
    | array _ hi => exact (hi v hv).deeper
  · cases hd with
    | object _ hm => exact (hm _ hv).deeper

theorem whole_select {d v : Json} {segment : Text} (hd : Whole d)
    (h : select d segment = some v) : Whole v := by
  rcases select_cases h with ⟨items, rfl, hv⟩ | ⟨ms, name, rfl, hv⟩
  · cases hd with
    | array hi => exact hi v hv
  · cases hd with
    | object hm => exact hm _ hv

/-- What holds of a document and passes on to what is selected holds of what a pattern resolves
to. -/
theorem resolve_induction {P : Json → Prop}
    (hP : ∀ {d v segment}, P d → select d segment = some v → P v) {d v : Json} {p : Text}
    (hd : P d) (h : resolve d p = some v) : P v := by
  unfold resolve at h
  generalize Pattern.segments p = ss at h
  induction ss generalizing d with
  | nil =>
    cases h
    exact hd
  | cons s ss ih =>
    rw [List.foldlM_cons] at h
    cases hs : select d s with
    | none =>
      rw [hs] at h
      cases h
    | some w =>
      rw [hs] at h
      exact ih (hP hd hs) h

/-- What is found in a document of integers is read back from what it is written as. -/
theorem read_found {record : Bytes} {d v : Json} {p : Text} (hr : Json.read record = .ok d)
    (hd : d.Whole) (hv : resolve d p = some v) : Json.read (Utf8.encode v.write) = .ok v := by
  have hwhole : v.Whole := resolve_induction whole_select hd hv
  exact hwhole.faithful.read_write (resolve_induction readable_select (read_readable hr) hv)

/-- The rest of a pattern is resolved in what its first part resolves to. -/
theorem resolve_append {p s : Text} (hs : Pattern.isContinuation s = true) (d : Json) :
    resolve d (p ++ s) = (resolve d p).bind (resolve · s) := by
  unfold resolve
  rw [Pattern.segments_append hs, List.foldlM_append]
  rfl

/-! ### Looking up -/

theorem get_of_read {data : Bytes} {d : Json} (h : Json.read data = .ok d) (p : Text) :
    get data p =
      match resolve d p with
      | some v =>
        if (describe v).2 = .missing then .error (.notExists p) else .ok (describe v)
      | none => .error (.notExists p) := by
  unfold get
  rw [h]
  simp only
  cases resolve d p with
  | none => rfl
  | some v => rfl

/-- A lookup that gives something has resolved the pattern. -/
theorem resolve_of_get {record : Bytes} {d : Json} (hr : Json.read record = .ok d) {p t : Text}
    {k : Kind} (h : get record p = .ok (t, k)) :
    ∃ v, resolve d p = some v ∧ describe v = (t, k) := by
  rw [get_of_read hr] at h
  cases hv : resolve d p with
  | none => rw [hv] at h; cases h
  | some v =>
    rw [hv] at h
    simp only at h
    split at h
    · cases h
    · exact ⟨v, rfl, Except.ok.inj h⟩

/-- A lookup in what is found is a lookup with the longer pattern in the record, if it is read back
from what it is written as. -/
theorem get_found {record : Bytes} {d v : Json} {p rest : Text} (hr : Json.read record = .ok d)
    (hv : resolve d p = some v) (hread : Json.read (Utf8.encode v.write) = .ok v)
    (hrest : Pattern.isContinuation rest = true) :
    (∃ found, get (Utf8.encode v.write) rest = .ok found ∧ get record (p ++ rest) = .ok found) ∨
      ∃ q q', get (Utf8.encode v.write) rest = .error (.notExists q) ∧
        get record (p ++ rest) = .error (.notExists q') := by
  rw [get_of_read hread, get_of_read hr, resolve_append hrest, hv, Option.bind_some]
  cases resolve v rest with
  | none => exact .inr ⟨rest, p ++ rest, rfl, rfl⟩
  | some u =>
    by_cases hu : (describe u).2 = .missing
    · simp only [hu, if_true]
      exact .inr ⟨rest, p ++ rest, rfl, rfl⟩
    · simp only [hu, if_false]
      exact .inl ⟨describe u, rfl, rfl⟩

theorem elements_of_read {data : Bytes} {items : List Json}
    (h : Json.read data = .ok (.array items)) : elements data = .ok (items.map describe) := by
  rw [elements, read, h]
  rfl

theorem members_of_read {data : Bytes} {ms : List (Text × Json)}
    (h : Json.read data = .ok (.object ms)) :
    members data = .ok (ms.map fun m => (m.1, describe m.2)) := by
  rw [members, read, h]
  rfl

end Record
end MailMerge
