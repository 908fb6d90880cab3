import MailMerge.Batch.Source
import MailMerge.Proofs.Chains
import Mathlib.Tactic.SplitIfs

/-!
# Writing files

A text that is written can be read back, and what stands elsewhere stays: a write changes the entry
at one place, which is no directory, so that every path still leads where it led before. Paths that
put different names below one directory lead to different places.
-/

namespace MailMerge

/-! ### Names in a directory -/

namespace Path

/-- What may be the name of a file in a directory. -/
structure IsName (name : Text) : Prop where
  ne_nil : name ≠ []
  no_slash : '/' ∉ name
  ne_here : name ≠ ['.']
  ne_up : name ≠ ['.', '.']

instance (name : Text) : Decidable (IsName name) :=
  decidable_of_iff (name ≠ [] ∧ '/' ∉ name ∧ name ≠ ['.'] ∧ name ≠ ['.', '.'])
    ⟨fun ⟨h, hs, hh, hu⟩ => ⟨h, hs, hh, hu⟩, fun ⟨h, hs, hh, hu⟩ => ⟨h, hs, hh, hu⟩⟩

theorem IsName.not_void {name : Text} (h : IsName name) : isVoid name = false := by
  simp [isVoid, h.ne_nil, h.ne_here]

/-- Between the slashes of a path, a name below a directory comes last. What stands before it leads
to the directory, in which nothing may follow a slash. -/
theorem pieces_below (directory : Text) {name : Text} (h : '/' ∉ name) :
    ∃ pre, Text.pieces '/' (below directory name) = pre ++ [name] ∧
      (Text.pieces '/' directory = pre ∨ Text.pieces '/' directory = pre ++ [[]]) := by
  have hlast : ∀ w : Text, Text.pieces '/' (w ++ '/' :: name) = Text.pieces '/' w ++ [name] :=
    fun w => by rw [Text.pieces_mark, Text.pieces_of_not_mem h]
  unfold below
  split
  · next hc =>
    rw [List.getLast?_eq_none_iff.mp hc]
    exact ⟨[], Text.pieces_of_not_mem h, .inr rfl⟩
  · next c hc =>
    split
    · next hslash =>
      obtain ⟨w, rfl⟩ := List.getLast?_eq_some_iff.mp hc
      rw [hslash, List.append_assoc]
      exact ⟨_, hlast w, .inr (Text.pieces_mark '/' w [])⟩
    · exact ⟨_, hlast directory, .inl rfl⟩

end Path

namespace Files

open Parsing (ok_of_bind)

variable {fs fs' : Files} {place q r : List Text} {names : List Text} {path : Text} {c : Bytes}

/-! ### Entries -/

/-- Entries at other places than one. -/
theorem lookup_filter (l : List (List Text × Entry)) (place q : List Text) :
    (l.filter (·.1 ≠ place)).lookup q = if q = place then none else l.lookup q := by
  induction l with
  | nil => simp
  | cons e l ih =>
    obtain ⟨k, e⟩ := e
    by_cases hk : k = place
    · rw [List.filter_cons_of_neg (by simp [hk]), ih, List.lookup_cons]
      split_ifs with hq
      · rfl
      · rw [beq_eq_false_iff_ne.mpr (hk ▸ hq)]
    · rw [List.filter_cons_of_pos (by simp [hk]), List.lookup_cons, List.lookup_cons, ih]
      split_ifs with hq
      · rw [beq_eq_false_iff_ne.mpr (hq ▸ Ne.symm hk)]
      · rfl

theorem at?_set_self (fs : Files) (e : Entry) (h : place ≠ []) :
    (fs.set place e).at? place = some e := by
  unfold at? set
  rw [List.lookup_append, lookup_filter, if_pos rfl, List.isEmpty_eq_false_iff.mpr h]
  simp

theorem at?_set_ne (fs : Files) (e : Entry) (h : q ≠ place) :
    (fs.set place e).at? q = fs.at? q := by
  have hlast : List.lookup q [(place, e)] = none := by simp [h]
  unfold at? set
  rw [List.lookup_append, lookup_filter, if_neg h, hlast, Option.or_none]

/-! ### Places -/

/-- If the directories are still there, a walk ends at the same place. -/
theorem walk_congr (h : ∀ q, fs.at? q = some .directory → fs'.at? q = some .directory)
    (hw : fs.walk place names = .ok r) : fs'.walk place names = .ok r := by
  induction names generalizing place with
  | nil => exact hw
  | cons n names ih =>
    rw [walk] at hw ⊢
    split at hw
    · cases hw
    · cases hw
    · next hd =>
      rw [h place hd]
      dsimp only
      split_ifs at hw ⊢
      · exact ih hw
      · exact ih hw
      · exact ih hw

theorem locate_congr (h : ∀ q, fs.at? q = some .directory → fs'.at? q = some .directory)
    (hl : fs.locate path = .ok place) : fs'.locate path = .ok place := by
  unfold locate at hl ⊢
  split_ifs at hl ⊢
  exact walk_congr h hl

/-- A walk along more names goes on from where the first ones lead. -/
theorem walk_append (fs : Files) (names more : List Text) :
    fs.walk place (names ++ more) = (do fs.walk (← fs.walk place names) more) := by
  induction names generalizing place with
  | nil => rfl
  | cons n names ih =>
    rw [List.cons_append, walk, walk]
    split
    · rfl
    · rfl
    · split_ifs
      · exact ih
      · exact ih
      · rfl
      · exact ih

/-- From a directory, a name leads to the place of that name in it. -/
theorem walk_name {base : List Text} {name : Text} (hn : Path.IsName name)
    (h : fs.walk base [name] = .ok place) :
    fs.at? base = some .directory ∧ place = base ++ [name] := by
  simp only [walk, hn.not_void, Bool.false_eq_true, if_false, hn.ne_up] at h
  split at h
  · cases h
  · cases h
  · next hd =>
    split at h
    · cases h
    · cases h
      exact ⟨hd, rfl⟩

/-- A name below a directory leads to a place of that name in the place of the directory. -/
theorem locate_below {directory name : Text} (hn : Path.IsName name)
    (h : fs.locate (Path.below directory name) = .ok place) :
    ∃ base, fs.walk [] (directory.pieces '/') = .ok base ∧ place = base ++ [name] := by
  obtain ⟨pre, hpre, hdirectory⟩ := Path.pieces_below directory hn.no_slash
  unfold locate at h
  split_ifs at h
  rw [hpre, walk_append] at h
  obtain ⟨base, hbase, h⟩ := ok_of_bind h
  obtain ⟨hd, hplace⟩ := walk_name hn h
  refine ⟨base, ?_, hplace⟩
  rcases hdirectory with hp | hp
  · rw [hp, hbase]
  · -- nothing after a slash is the directory itself
    rw [hp, walk_append, hbase]
    change fs.walk base [[]] = _
    rw [walk, hd]
    rfl

theorem getLast_of_locate_below {directory name : Text} (hn : Path.IsName name)
    (h : fs.locate (Path.below directory name) = .ok place) : place.getLast? = some name := by
  obtain ⟨base, -, rfl⟩ := locate_below hn h
  exact List.getLast?_concat

/-! ### Listing -/

/-- Files all whose names may be names in a directory. -/
def WellNamed (fs : Files) : Prop := ∀ e ∈ fs.entries, ∀ n ∈ e.1, Path.IsName n

instance (fs : Files) : Decidable fs.WellNamed :=
  inferInstanceAs (Decidable (∀ e ∈ fs.entries, ∀ n ∈ e.1, Path.IsName n))

/-- Names that stand in order are listed as they stand. -/
theorem list_of_sorted (hl : fs.locate path = .ok place) (hd : fs.at? place = some .directory)
    (hs : (fs.filesIn place).Pairwise fun a b => (Text.compare a b != .gt) = true) :
    fs.list path = .ok (fs.filesIn place) := by
  rw [list, hl]
  simp only [bind, Except.bind, hd]
  rw [List.mergeSort_of_pairwise hs]

/-- A directory lists names. -/
theorem isName_of_mem_list (h : fs.WellNamed) (hl : fs.list path = .ok names) {n : Text}
    (hn : n ∈ names) : Path.IsName n := by
  obtain ⟨place, -, hl⟩ := ok_of_bind hl
  split at hl
  · cases hl
  · cases hl
    cases hn
  · cases hl
    rw [List.mem_mergeSort, filesIn, List.mem_filterMap] at hn
    obtain ⟨⟨p, e⟩, he, hn⟩ := hn
    dsimp only at hn
    split at hn
    · next name hlast =>
      split_ifs at hn
      cases hn
      exact h _ he _ (List.mem_of_getLast? hlast)
    · cases hn

/-! ### Writing and reading -/

/-- A write that succeeds makes an entry at the place of its path, where no directory is. -/
theorem write_ok (h : fs.write path c = .ok fs') :
    ∃ place, fs.locate path = .ok place ∧ fs.at? place ≠ some .directory ∧
      fs' = fs.set place (.file c) := by
  have htrim : path.getLast? ≠ some '/' → (path.reverse.dropWhile (· = '/')).reverse = path := by
    intro hl
    rw [List.getLast?_eq_head?_reverse] at hl
    cases hr : path.reverse with
    | nil => rw [List.reverse_eq_nil_iff.mp hr]; rfl
    | cons d r =>
      rw [hr] at hl
      rw [List.dropWhile_cons_of_neg (by simpa using hl), ← hr, List.reverse_reverse]
  obtain ⟨place, hp, h⟩ := ok_of_bind h
  split at h
  · cases h
  · next hat =>
    split at h
    · cases h
    · next ht =>
      cases h
      rw [htrim (by simpa using ht)] at hp
      exact ⟨place, hp, by rw [hat]; nofun, rfl⟩
  · next hat =>
    split at h
    · cases h
    · next ht =>
      cases h
      rw [htrim (by simpa using ht)] at hp
      exact ⟨place, hp, by rw [hat]; nofun, rfl⟩

theorem read_ok_iff : fs.read path = .ok c ↔
    ∃ place, fs.locate path = .ok place ∧ fs.at? place = some (.file c) := by
  constructor
  · intro h
    obtain ⟨e, he, h⟩ := ok_of_bind h
    obtain ⟨place, hl, hat⟩ := ok_of_bind he
    split at hat
    · next hentry =>
      cases hat
      cases e with
      | file b =>
        cases h
        exact ⟨place, hl, hentry⟩
      | directory => cases h
    · cases hat
  · rintro ⟨place, hl, hat⟩
    have he : fs.entry path = .ok (.file c) := by
      rw [entry, hl]
      simp only [bind, Except.bind, hat]
    rw [read, he]
    rfl

/-- Directories are still there after a write. -/
theorem at?_write (hat : fs.at? place ≠ some .directory) (q : List Text)
    (hq : fs.at? q = some .directory) : (fs.set place (.file c)).at? q = some .directory := by
  rw [at?_set_ne]
  · exact hq
  · rintro rfl
    exact hat hq

/-- What is written can be read. -/
theorem read_write (h : fs.write path c = .ok fs') : fs'.read path = .ok c := by
  obtain ⟨place, hl, hat, rfl⟩ := write_ok h
  have hne : place ≠ [] := by
    rintro rfl
    exact hat rfl
  exact read_ok_iff.mpr ⟨place, locate_congr (at?_write hat) hl, at?_set_self fs _ hne⟩

/-- A file of another name in the same directory stays as it is. -/
theorem read_write_beside {directory name other : Text} {b : Bytes} (hn : Path.IsName name)
    (ho : Path.IsName other) (hne : name ≠ other)
    (hw : fs.write (Path.below directory name) c = .ok fs')
    (hr : fs.read (Path.below directory other) = .ok b) :
    fs'.read (Path.below directory other) = .ok b := by
  obtain ⟨place, hl, hat, rfl⟩ := write_ok hw
  obtain ⟨q, hq, hfile⟩ := read_ok_iff.mp hr
  have hplaces : q ≠ place := by
    rintro rfl
    have hlast := getLast_of_locate_below hn hl
    rw [getLast_of_locate_below ho hq] at hlast
    exact hne (Option.some.inj hlast).symm
  exact read_ok_iff.mpr
    ⟨q, locate_congr (at?_write hat) hq, (at?_set_ne fs _ hplaces).trans hfile⟩

end Files
end MailMerge
