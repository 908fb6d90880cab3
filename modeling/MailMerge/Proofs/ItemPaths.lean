import MailMerge.Proofs.LexicalScope
import MailMerge.Proofs.RecordLookup
import MailMerge.Proofs.Substitution

/-!
# The item of a loop and the path of its element

Outside of a loop over data of the record, the element of a round has a path of its own: that of the
loop's target with an index or a property after it. A pattern that begins with the item finds in the
round what the same pattern finds outside of the loop when the path of the element stands for the
item, whatever loops are entered in between, as long as none of them binds the item or the first
name of the path.
-/

namespace MailMerge

/-! ### Longer patterns -/

theorem Text.isNumeral_ofNat (k : Nat) : Text.isNumeral (Text.ofNat k) = true := by
  simp only [isNumeral, ofNat, Bool.and_eq_true, Bool.not_eq_true', List.isEmpty_eq_false_iff,
    List.all_eq_true]
  exact ⟨Nat.toDigits_ne_nil, fun c hc =>
    Nat.isDigit_of_mem_toDigits (by decide) (by decide) hc⟩

namespace Pattern

theorem isContinuation_append {s t : Text} (hs : isContinuation s = true)
    (ht : isContinuation t = true) : isContinuation (s ++ t) = true := by
  rcases isContinuation_iff.mp hs with rfl | ⟨r, rfl⟩ | ⟨r, rfl⟩ | ⟨r, rfl⟩
  · exact ht
  · rfl
  · rfl
  · rfl

theorem segments_property {mark name rest : Text} (hm : mark = ['-', '>'] ∨ mark = ['.'])
    (hn : Token.isPlainName name = true) (hr : isContinuation rest = true) :
    segments (mark ++ (name ++ rest)) = name :: segments rest := by
  have h : segments (mark ++ (name ++ rest)) = segments (name ++ rest) := by
    rcases hm with rfl | rfl <;> rfl
  rw [h, segments_append hr, segments_name hn]
  rfl

theorem segments_index {digits rest : Text} (hd : Text.isNumeral digits = true) :
    segments ('[' :: (digits ++ ']' :: rest)) = ('[' :: (digits ++ [']'])) :: segments rest := by
  simp only [Text.isNumeral, Bool.and_eq_true] at hd
  have hw : digits.all Token.isWordChar = true := by
    simp only [List.all_eq_true] at hd ⊢
    intro c hc
    simp [Token.isWordChar, Char.isAlphanum, hd.2 c hc]
  have h : segments ('[' :: (digits ++ ']' :: rest)) =
      flush [] (segmentsFrom ['['] (digits ++ ']' :: rest)) := rfl
  rw [h, segmentsFrom_name hw]
  simp [segmentsFrom, flush, segments]

/-- Steps that are not empty have a segment. -/
theorem Steps.segments_ne_nil {s : Text} (h : Steps s) (hs : s ≠ []) : segments s ≠ [] := by
  cases h with
  | nil => exact absurd rfl hs
  | property hm hn hr => rw [segments_property hm hn hr.isContinuation]; exact List.cons_ne_nil _ _
  | index hd _ => rw [segments_index hd]; exact List.cons_ne_nil _ _

/-- The pattern with `path` for its first segment if that is the name `item`. -/
def replaceHead (item path q : Text) : Text :=
  if (segments q).head? = some item then path ++ q.drop item.length else q

theorem replaceHead_path {name steps : Text} (hn : Token.isPlainName name = true)
    (hs : isContinuation steps = true) (item path : Text) :
    replaceHead item path (name ++ steps) =
      if name = item then path ++ steps else name ++ steps := by
  unfold replaceHead
  rw [segments_append hs, segments_name hn]
  by_cases h : name = item
  · subst h
    simp
  · simp [h]

/-- Digits are read as the number that they write, if it is below the limit. -/
theorem index?_numeral {digits : Text} (hd : Text.isNumeral digits = true) : index? digits =
    if Text.numeralValue digits < indexLimit then some (Text.numeralValue digits) else none := by
  have hplus : Text.after? ['+'] digits = none := by
    cases ha : Text.after? ['+'] digits with
    | none => rfl
    | some rest =>
      rw [Text.eq_append_of_after? ha] at hd
      cases hd
  simp only [index?, hplus, Option.getD_none, hd, Bool.true_and, decide_eq_true_eq]

/-- What stands in brackets is read as an index. -/
theorem indexOf?_brackets (t : Text) : indexOf? ('[' :: (t ++ [']'])) = index? t := by
  have hafter : Text.after? ['['] ('[' :: (t ++ [']'])) = some (t ++ [']']) :=
    Text.after?_append ['['] _
  simp only [indexOf?, hafter, Text.before?_append, bind, Option.bind]

/-- An index in brackets is read as that index. -/
theorem indexOf?_ofNat {k : Nat} (hk : k < indexLimit) :
    indexOf? ('[' :: (Text.ofNat k ++ [']'])) = some k := by
  have hvalue : Text.numeralValue (Text.ofNat k) = k := Nat.ofDigitChars_ten_toDigits
  rw [indexOf?_brackets, index?_numeral (Text.isNumeral_ofNat k), hvalue, if_pos hk]

/-- A name is no index. -/
theorem indexOf?_name {name : Text} (hn : Token.isPlainName name = true) :
    indexOf? name = none := by
  have h : Text.after? ['['] name = none := by
    cases ha : Text.after? ['['] name with
    | none => rfl
    | some rest =>
      rw [Text.eq_append_of_after? ha] at hn
      cases hn
  rw [indexOf?, h]
  rfl

end Pattern

/-! ### Scopes -/

namespace Scope

/-- A scope that does not bind a name. -/
structure Avoids (name : Text) (s : Scope) : Prop where
  item : s.item ≠ name
  index : s.index ≠ some name

/-- An index that is a path has no steps. -/
theorem HasPlainNames.index_bare {s : Scope} {name steps : Text} (hs : s.HasPlainNames)
    (hn : Token.isPlainName name = true) (hc : Pattern.isContinuation steps = true)
    (h : s.index = some (name ++ steps)) : steps = [] := by
  have hi := hs.index _ h
  have ht := Pattern.takeWhile_name hi (s := []) rfl
  rw [List.append_nil, Pattern.takeWhile_name hn hc] at ht
  exact List.append_right_eq_self.mp ht.symm

theorem Avoids.index_path {s : Scope} {name steps : Text} (ha : s.Avoids name)
    (hs : s.HasPlainNames) (hn : Token.isPlainName name = true)
    (hc : Pattern.isContinuation steps = true) : s.index ≠ some (name ++ steps) := by
  intro h
  rw [hs.index_bare hn hc h, List.append_nil] at h
  exact ha.index h

variable {name steps : Text}

/-- Scopes that do not bind the first name of a path are passed. -/
theorem route_avoiding {outer : List Scope} (data : Bytes) (hn : Token.isPlainName name = true)
    (hc : Pattern.isContinuation steps = true) :
    ∀ {inner : List Scope}, (∀ t ∈ inner ++ outer, t.HasPlainNames) →
      (∀ t ∈ inner, t.Avoids name) →
        route (inner ++ outer) data (name ++ steps) = route outer data (name ++ steps)
  | [], _, _ => rfl
  | s :: inner, hp, ha => by
    have hs := ha s List.mem_cons_self
    have ih := route_avoiding data hn hc (fun t ht => hp t (List.mem_cons_of_mem s ht))
      (fun t ht => ha t (List.mem_cons_of_mem s ht))
    rw [List.cons_append] at hp ⊢
    rw [route_path hp data hn hc, if_neg (hs.index_path (hp s List.mem_cons_self) hn hc),
      if_neg (Ne.symm hs.item), ih]

/-- A scope without an index outside of all others makes no difference to a path that does not begin
with its item. -/
theorem route_outermost {s : Scope} (hi : s.index = none) (hne : s.item ≠ name) (data : Bytes)
    (hn : Token.isPlainName name = true) (hc : Pattern.isContinuation steps = true) :
    ∀ {inner : List Scope}, (∀ t ∈ inner ++ [s], t.HasPlainNames) →
      route (inner ++ [s]) data (name ++ steps) = route inner data (name ++ steps)
  | [], hp => by
    rw [List.nil_append, route_path hp data hn hc, hi, if_neg (by simp), if_neg (Ne.symm hne)]
  | t :: inner, hp => by
    have hinner : ∀ u ∈ t :: inner, u.HasPlainNames := fun u hu =>
      hp u (List.mem_append_left [s] hu)
    have ih := route_outermost hi hne data hn hc fun u hu => hp u (List.mem_cons_of_mem t hu)
    rw [List.cons_append] at hp ⊢
    rw [route_path hp data hn hc, route_path hinner data hn hc, ih]

/-- The scope of a round without an index. -/
def ofElement (item : Text) (b : Binding) (w : Json) : Scope :=
  ⟨item, none, Utf8.encode (Record.describe w).1, (Record.describe w).2, b⟩

/-- The names of such a scope are plain if the item is. -/
theorem plain_ofElement {item : Text} (h : Token.isPlainName item = true) (b : Binding) (w : Json) :
    (ofElement item b w).HasPlainNames := ⟨h, nofun⟩

/-- What such a scope makes of a path that begins with its item. -/
theorem route_ofElement {item : Text} (h : Token.isPlainName item = true)
    (hc : Pattern.isContinuation steps = true) (b : Binding) (w : Json) (data : Bytes) :
    route [ofElement item b w] data (item ++ steps) =
      if steps = [] then
        if (Record.describe w).2 = .missing then .absent (item ++ steps)
        else .found (Record.describe w).1 (Record.describe w).2
      else if isContainer (Record.describe w).2 then
        .ask (Utf8.encode (Record.describe w).1) steps
      else .absent (item ++ steps) := by
  have hp : ∀ t ∈ [ofElement item b w], t.HasPlainNames := fun t ht =>
    List.mem_singleton.mp ht ▸ plain_ofElement h b w
  have hitem : item = (ofElement item b w).item := rfl
  have helement : Utf8.decodeLossy (ofElement item b w).element = (Record.describe w).1 :=
    Utf8.decodeLossy_encode _
  rw [route_path hp data h hc, if_neg nofun, if_pos hitem, helement]
  rfl

end Scope

/-! ### What is found -/

namespace Record

open Json

/-- Nothing is found inside of a value that is neither an array nor an object. -/
theorem resolve_scalar {w : Json} {steps : Text} (hw : Scope.isContainer (describe w).2 = false)
    (hs : Pattern.segments steps ≠ []) : resolve w steps = none := by
  unfold resolve
  obtain ⟨s, ss, he⟩ := List.exists_cons_of_ne_nil hs
  have hsel : select w s = none := by
    cases hw' : select w s with
    | none => rfl
    | some v =>
      rcases select_cases hw' with ⟨items, rfl, -⟩ | ⟨ms, -, rfl, -⟩ <;> cases hw
  rw [he, List.foldlM_cons, hsel]
  rfl

/-- An array or an object is handed out as it is written. -/
theorem describe_container {w : Json} (hw : Scope.isContainer (describe w).2 = true) :
    (describe w).1 = w.write := by
  cases w with
  | array items => rfl
  | object ms => rfl
  | _ => cases hw

/-- A lookup in an array or object that was found finds what the whole pattern finds. -/
theorem get_inside {record : Bytes} {document w : Json} {path steps : Text}
    (hr : Json.read record = .ok document) (hi : Whole document)
    (hw : resolve document path = some w) (hc : Scope.isContainer (describe w).2 = true)
    (hs : Pattern.isContinuation steps = true) :
    Alike RenderError.SameVariant Eq (get (Utf8.encode (describe w).1) steps)
      (get record (path ++ steps)) := by
  rw [describe_container hc]
  rcases get_found hr hw (read_found hr hi hw) hs with ⟨found, hin, hout⟩ | ⟨q, q', hin, hout⟩
  · rw [hin, hout]
    exact .ok rfl
  · rw [hin, hout]
    exact .error rfl

end Record

namespace Scope

open Json Record

variable {record : Bytes} {document w : Json} {item head rest : Text}

/-- The item, and what is inside of it, is what the record has at the path of the element. -/
theorem through_item (hr : Json.read record = .ok document) (hi : Whole document) {path : Text}
    (hw : resolve document path = some w) (hitem : Token.isPlainName item = true) (b : Binding)
    {steps : Text} (hs : Pattern.Steps steps) :
    Alike RenderError.SameVariant Eq
      (through [ofElement item b w] Record.get record (item ++ steps))
      (Record.get record (path ++ steps)) := by
  have hc := hs.isContinuation
  unfold through
  rw [route_ofElement hitem hc]
  by_cases hnil : steps = []
  · subst hnil
    simp only [if_true, List.append_nil]
    rw [get_of_read hr, hw]
    by_cases hm : (describe w).2 = .missing
    · simp only [hm, if_true]
      exact .error rfl
    · simp only [hm, if_false]
      exact .ok rfl
  · rw [if_neg hnil]
    by_cases hcontainer : isContainer (describe w).2 = true
    · rw [if_pos hcontainer]
      exact get_inside hr hi hw hcontainer hc
    · rw [if_neg hcontainer, get_of_read hr, resolve_append hc, hw, Option.bind_some,
        resolve_scalar (Bool.eq_false_iff.mpr hcontainer) (hs.segments_ne_nil hnil)]
      exact .error rfl

/-- A pattern finds in the round of an outermost loop what it finds outside of the loop with the
path of the element for the item. -/
theorem through_ofElement (hr : Json.read record = .ok document) (hi : Whole document)
    (hhead : Token.isPlainName head = true) (hrest : Pattern.isContinuation rest = true)
    (hw : resolve document (head ++ rest) = some w) (hitem : Token.isPlainName item = true)
    (b : Binding) {inner : List Scope} (hp : ∀ t ∈ inner, t.HasPlainNames)
    (ha : ∀ t ∈ inner, t.Avoids item ∧ t.Avoids head) {q : Text} (hq : Pattern.IsWritten q) :
    Alike RenderError.SameVariant Eq
      (through (inner ++ [ofElement item b w]) Record.get record q)
      (through inner Record.get record (Pattern.replaceHead item (head ++ rest) q)) := by
  obtain ⟨name, steps, rfl, hn, hsteps, -⟩ := hq.isPath.split
  have hs := hsteps.isContinuation
  have hall : ∀ t ∈ inner ++ [ofElement item b w], t.HasPlainNames := by
    intro t ht
    rcases List.mem_append.mp ht with ht | ht
    · exact hp t ht
    · exact List.mem_singleton.mp ht ▸ plain_ofElement hitem b w
  rw [Pattern.replaceHead_path hn hs]
  by_cases hne : name = item
  · -- the item, or something inside of the element: no scope between binds either name
    subst hne
    have hin := route_avoiding record hn hs hall fun t ht => (ha t ht).1
    have hout : route (inner ++ []) record (head ++ (rest ++ steps)) =
        route [] record (head ++ (rest ++ steps)) :=
      route_avoiding record hhead (Pattern.isContinuation_append hrest hs)
        (by rwa [List.append_nil]) fun t ht => (ha t ht).2
    rw [List.append_nil, ← List.append_assoc] at hout
    have h := through_item hr hi hw hn b hsteps
    unfold through at h ⊢
    rw [if_pos rfl, hin, hout]
    exact h
  · -- any other name: the scope of the round is not seen
    unfold through
    rw [if_neg hne, route_outermost rfl (Ne.symm hne) record hn hs hall]
    exact .refl RenderError.SameVariant.refl _

end Scope

/-! ### Contexts -/

namespace Context

open Eval (Agree)

variable {σ : Type} {E : RenderError → RenderError → Prop}

/-- A lookup makes no calls and has the result of the getter through the scopes. -/
theorem lookup_agree {c d : Context σ} {p q : Text}
    (h : Alike E Eq (Scope.through c.scopes c.root c.data p)
      (Scope.through d.scopes d.root d.data q)) : Agree E Eq (c.lookup p) (d.lookup q) := by
  have hlook : ∀ (c : Context σ) (p : Text) (s : σ),
      (c.lookup p s).result = Scope.through c.scopes c.root c.data p ∧
        Event.calls (c.lookup p s).events = [] ∧ (c.lookup p s).state = s := by
    intro c p s
    unfold lookup Scope.through
    cases Scope.route c.scopes c.data p with
    | found t k => exact ⟨rfl, rfl, rfl⟩
    | absent p => exact ⟨rfl, rfl, rfl⟩
    | ask d p => exact ⟨rfl, rfl, rfl⟩
  intro s
  obtain ⟨hr, hc, hs⟩ := hlook c p s
  obtain ⟨hr', hc', hs'⟩ := hlook d q s
  rw [hr, hr', hc, hc', hs, hs']
  exact ⟨h, rfl, rfl⟩

/-- A context in the round of an outermost loop and the context of the same record with the same
scopes inside of that loop, none of which binds one of two names. -/
structure InRound (record : Bytes) (host : Option (Host σ)) (s : Scope) (item head : Text)
    (c d : Context σ) : Prop where
  inside : c = ⟨record, Record.get, d.scopes ++ [s], host⟩
  outside : d = ⟨record, Record.get, d.scopes, host⟩
  plain : ∀ t ∈ d.scopes, t.HasPlainNames
  avoids : ∀ t ∈ d.scopes, t.Avoids item ∧ t.Avoids head

/-- Entering a loop whose names are plain and other ones keeps contexts related so. -/
theorem InRound.enter {record : Bytes} {host : Option (Host σ)} {s t : Scope} {item head : Text}
    {c d : Context σ} (h : InRound record host s item head c d) (hp : t.HasPlainNames)
    (ha : t.Avoids item ∧ t.Avoids head) :
    InRound record host s item head (c.enter t) (d.enter t) := by
  obtain ⟨hc, hd, hplain, havoids⟩ := h
  refine ⟨?_, ?_, ?_, ?_⟩
  · rw [hc]
    rfl
  · rw [hd]
    rfl
  · exact List.forall_mem_cons.mpr ⟨hp, hplain⟩
  · exact List.forall_mem_cons.mpr ⟨ha, havoids⟩

/-- A round of a loop over the record is simulated outside of the loop, with the path of the element
for the item. -/
theorem simulation_inRound {record : Bytes} {document w : Json} {item head rest : Text}
    (host : Option (Host σ)) (hr : Json.read record = .ok document) (hi : Json.Whole document)
    (hhead : Token.isPlainName head = true) (hrest : Pattern.isContinuation rest = true)
    (hw : Record.resolve document (head ++ rest) = some w)
    (hitem : Token.isPlainName item = true) (b : Binding) :
    Simulation RenderError.SameVariant (Pattern.replaceHead item (head ++ rest)) Pattern.IsWritten
      (fun n => Token.isPlainName n = true ∧ n ≠ item ∧ n ≠ head)
      (InRound record host (.ofElement item b w) item head) where
  host h := by rw [h.inside, h.outside]
  lookup h hp := by
    refine lookup_agree ?_
    rw [h.inside]
    rw [h.outside]
    exact Scope.through_ofElement hr hi hhead hrest hw hitem b h.plain h.avoids hp
  enter h hn hx := by
    refine h.enter ⟨hn.1, fun i hi => (hx i hi).1⟩ ⟨⟨hn.2.1, fun hs => ?_⟩, hn.2.2, fun hs => ?_⟩
    · exact (hx _ hs).2.1 rfl
    · exact (hx _ hs).2.2 rfl

end Context

end MailMerge
