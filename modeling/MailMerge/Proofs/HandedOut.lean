import MailMerge.Proofs.RecordLookup
import MailMerge.Proofs.RepeatedMembers
import MailMerge.Scope

/-!
# What is handed out is a record again

An array or an object that a lookup in a record hands out is a record again: lookups in it find what
the longer pattern finds in the record, and its elements or members are those that the record has
where it was found, in their order, of repeated members the last value at the first place.
-/

namespace MailMerge

namespace Json

/-- The members of a list in which repeated ones are united are members of the list. -/
theorem mem_of_mem_lastValues {ms : List (Text × Json)} {m : Text × Json}
    (h : m ∈ lastValues ms) : m ∈ ms := by
  obtain ⟨n, -, hm⟩ := List.mem_filterMap.mp h
  obtain ⟨v, hv, rfl⟩ := Option.map_eq_some_iff.mp hm
  exact List.mem_reverse.mp (mem_of_member? hv)

theorem Whole.unite {v : Json} (h : Whole v) : Whole v.unite := by
  induction h with
  | null => exact .null
  | bool b => exact .bool b
  | integer i => exact .integer i
  | minusZero => exact .minusZero
  | string t => exact .string t
  | @array items _ ih =>
    rw [Json.unite, uniteItems_eq]
    refine .array fun v hv => ?_
    obtain ⟨w, hw, rfl⟩ := List.mem_map.mp hv
    exact ih w hw
  | @object ms _ ih =>
    rw [Json.unite, uniteMembers_eq]
    refine .object fun m hm => ?_
    obtain ⟨w, hw, rfl⟩ := List.mem_map.mp (mem_of_mem_lastValues hm)
    exact ih w hw

theorem member?_map (f : Json → Json) (name : Text) (ms : List (Text × Json)) :
    member? name (ms.map fun m => (m.1, f m.2)) = (member? name ms).map f := by
  induction ms with
  | nil => rfl
  | cons m ms ih =>
    rw [List.map_cons, member?, member?, ih]
    split <;> rfl

/-- A united member has its last value. -/
theorem member?_lastValues (name : Text) (ms : List (Text × Json)) :
    member? name (lastValues ms) = member? name ms.reverse := by
  rw [← setAll_eq_lastValues, member?_setAll]

/-- Uniting the values of members before or after the members makes no difference. -/
theorem lastValues_map (f : Json → Json) (ms : List (Text × Json)) :
    lastValues (ms.map fun m => (m.1, f m.2)) = (lastValues ms).map fun m => (m.1, f m.2) := by
  rw [lastValues, lastValues, List.map_filterMap, List.map_map, ← List.map_reverse]
  refine List.filterMap_congr fun n _ => ?_
  rw [member?_map]
  cases member? n ms.reverse <;> rfl

end Json

namespace Record

open Json

/-! ### Looking up what is written -/

/-- The value that one segment selects in a document with all its members. -/
def selectWritten (document : Json) (segment : Text) : Option Json :=
  match Pattern.indexOf? segment, document with
  | some i, .array items => items[i]?
  | none, .object members => Json.member? segment members.reverse
  | _, _ => none

/-- The value that a pattern selects in a document with all its members. -/
def resolveWritten (document : Json) (pattern : Text) : Option Json :=
  (Pattern.segments pattern).foldlM selectWritten document

theorem select_unite (w : Json) (segment : Text) :
    select w.unite segment = (selectWritten w segment).map unite := by
  unfold select selectWritten
  cases w with
  | array items =>
    rw [unite, uniteItems_eq]
    cases Pattern.indexOf? segment with
    | none => rfl
    | some i => exact List.getElem?_map
  | object ms =>
    rw [unite, uniteMembers_eq]
    cases Pattern.indexOf? segment with
    | none =>
      simp only
      rw [member?_lastValues, ← List.map_reverse, member?_map]
    | some i => rfl
  | _ => cases Pattern.indexOf? segment <;> rfl

/-- A pattern resolves in the united document to what it resolves to before, united. -/
theorem resolve_unite (w : Json) (p : Text) :
    resolve w.unite p = (resolveWritten w p).map unite := by
  unfold resolve resolveWritten
  induction Pattern.segments p generalizing w with
  | nil => rfl
  | cons s ss ih =>
    rw [List.foldlM_cons, List.foldlM_cons, select_unite]
    cases selectWritten w s with
    | none => rfl
    | some v => exact ih v

/-! ### What is handed out -/

/-- An array or an object that a lookup hands out is a record again, with the elements or members
that the record has where it was found. -/
theorem handed_out {record : Bytes} {w : Json} (hw : readWritten record = .ok w) (hn : w.Whole)
    {p t : Text} {k : Kind} (hg : get record p = .ok (t, k)) (hk : Scope.isContainer k = true) :
    (∀ rest, Pattern.isContinuation rest = true →
      (∃ found, get (Utf8.encode t) rest = .ok found ∧ get record (p ++ rest) = .ok found) ∨
      ∃ q q', get (Utf8.encode t) rest = .error (.notExists q) ∧
        get record (p ++ rest) = .error (.notExists q')) ∧
    ((∃ items, resolveWritten w p = some (.array items) ∧ k = .array ∧
        elements (Utf8.encode t) = .ok (items.map fun v => describe v.unite)) ∨
      ∃ ms, resolveWritten w p = some (.object ms) ∧ k = .object ∧
        members (Utf8.encode t) =
          .ok ((lastValues ms).map fun m => (m.1, describe m.2.unite))) := by
  have hr : Json.read record = .ok w.unite := by
    rw [read_eq, hw]
    rfl
  obtain ⟨v, hv, hdescribe⟩ := resolve_of_get hr hg
  have hread := read_found hr hn.unite hv
  have hlookup := fun rest (hrest : Pattern.isContinuation rest = true) =>
    get_found hr hv hread hrest
  rw [resolve_unite] at hv
  obtain ⟨u, hu, rfl⟩ := Option.map_eq_some_iff.mp hv
  cases u with
  | array items =>
    cases hdescribe
    refine ⟨hlookup, .inl ⟨items, hu, rfl, ?_⟩⟩
    have h := elements_of_read hread
    rwa [uniteItems_eq, List.map_map] at h
  | object ms =>
    cases hdescribe
    refine ⟨hlookup, .inr ⟨ms, hu, rfl, ?_⟩⟩
    have h := members_of_read hread
    rwa [uniteMembers_eq, lastValues_map, List.map_map] at h
  | _ => cases hdescribe; cases hk

/-- A member with a repeated name, an escape, and numbers at the ends of the 64-bit integers. -/
theorem handed_out_object :
    let record := Utf8.encode ("\x7b\"x\": \x7b\"k\": 0, \"\\u00e9\\n\": ".toList ++
      "-9223372036854775808, \"k\": [18446744073709551615]\x7d\x7d".toList)
    let t := "\x7b\"k\":[18446744073709551615],\"é\\n\":-9223372036854775808\x7d".toList
    get record "x".toList = .ok (t, .object) ∧
      (∀ rest, Pattern.isContinuation rest = true →
        (∃ found, get (Utf8.encode t) rest = .ok found ∧
          get record ("x".toList ++ rest) = .ok found) ∨
        ∃ q q', get (Utf8.encode t) rest = .error (.notExists q) ∧
          get record ("x".toList ++ rest) = .error (.notExists q')) ∧
      members (Utf8.encode t) =
        .ok [("k".toList, "[18446744073709551615]".toList, .array),
          ("é\n".toList, "-9223372036854775808".toList, .number)] := by
  intro record t
  have hw : readWritten record = .ok (.object [("x".toList, .object
      [("k".toList, .integer 0), ("é\n".toList, .integer (-9223372036854775808)),
        ("k".toList, .array [.integer 18446744073709551615])])]) := by decide +kernel
  have hn : (Json.object [("x".toList, .object
      [("k".toList, .integer 0), ("é\n".toList, .integer (-9223372036854775808)),
        ("k".toList, .array [.integer 18446744073709551615])])]).Whole :=
    .object (by simp [Whole.integer, Whole.object, Whole.array])
  have hg : get record "x".toList = .ok (t, .object) := by decide +kernel
  obtain ⟨hlookup, ⟨items, hi, hk, -⟩ | ⟨ms, hms, -, hmembers⟩⟩ := handed_out hw hn hg rfl
  · cases hk
  · refine ⟨hg, hlookup, hmembers.trans ?_⟩
    cases hms
    decide +kernel

end Record
end MailMerge
