import MailMerge.Proofs.Concatenation
import MailMerge.Proofs.ItemPaths

/-!
# Loops and their unrolling

A loop at the top of a template over an array or an object of the record renders like its body
written once per element, each time with the path of the element for the item: the loop's target
with the index or the key after it. The rounds of the loop and the copies of its body correspond one
by one, and a round agrees with its copy since its context is simulated outside of the loop.
-/

namespace MailMerge

/-! ### The copies of a body -/

/-- What is written after a pattern to select the elements of an array or the members of an object
that it leads to. -/
def Json.selectors : Json → List Text
  | .array items => items.zipIdx.map fun item => '[' :: (Text.ofNat item.2 ++ [']'])
  | .object members => members.map fun m => '-' :: '>' :: m.1
  | _ => []

/-- Something that can be unrolled: an array, or an object whose keys are plain names. -/
def Json.Unrollable : Json → Prop
  | .array _ => True
  | .object members => ∀ m ∈ members, Token.isPlainName m.1 = true
  | _ => False

theorem Json.Unrollable.isContainer {v : Json} (h : v.Unrollable) :
    Scope.isContainer (Record.describe v).2 = true := by
  cases v with
  | array items => rfl
  | object ms => rfl
  | _ => cases h

/-- The body of a loop, once per selector, with the selected path for the item. -/
def Outline.unroll (item target : Text) (body : Outline) (selectors : List Text) : Outline :=
  sequence (selectors.map fun s => body.mapPatterns (Pattern.replaceHead item (target ++ s)))

/-! ### Rounds and selectors -/

namespace Record

open Json

theorem member?_of_mem {name : Text} {v : Json} {ms : List (Text × Json)}
    (hn : (ms.map Prod.fst).Nodup) (h : (name, v) ∈ ms) : member? name ms = some v := by
  induction ms with
  | nil => cases h
  | cons m ms ih =>
    rw [List.map_cons, List.nodup_cons] at hn
    rw [member?]
    rcases List.mem_cons.mp h with rfl | hm
    · rw [if_pos rfl]
    · have hne : m.1 ≠ name := fun he => hn.1 (he ▸ List.mem_map_of_mem hm)
      rw [if_neg hne, ih hn.2 hm]

/-- An index selects an element of an array. -/
theorem resolve_index {items : List Json} {w : Json} {k : Nat} (hk : k < Pattern.indexLimit)
    (h : items[k]? = some w) :
    resolve (.array items) ('[' :: (Text.ofNat k ++ [']'])) = some w := by
  have hselect : select (.array items) ('[' :: (Text.ofNat k ++ [']'])) = some w := by
    simp only [select, Pattern.indexOf?_ofNat hk, h]
  rw [resolve, Pattern.segments_index (Text.isNumeral_ofNat k), List.foldlM_cons, hselect]
  rfl

/-- A key selects the value of a member. -/
theorem resolve_key {ms : List (Text × Json)} {m : Text × Json} (hn : (ms.map Prod.fst).Nodup)
    (hm : m ∈ ms) (hp : Token.isPlainName m.1 = true) :
    resolve (.object ms) ('-' :: '>' :: m.1) = some m.2 := by
  have hs : Pattern.segments (['-', '>'] ++ (m.1 ++ [])) = [m.1] :=
    Pattern.segments_property (.inl rfl) hp rfl
  rw [List.append_nil] at hs
  have hselect : select (.object ms) m.1 = some m.2 := by
    simp only [select, Pattern.indexOf?_name hp, member?_of_mem hn hm]
  change (Pattern.segments (['-', '>'] ++ m.1)).foldlM select _ = _
  rw [hs, List.foldlM_cons, hselect]
  rfl

/-- Looking a container up in a record describes it. -/
theorem get_container {record : Bytes} {document v : Json} {p : Text}
    (hr : Json.read record = .ok document) (hv : resolve document p = some v)
    (hc : Scope.isContainer (describe v).2 = true) : get record p = .ok (describe v) := by
  have hne : (describe v).2 ≠ .missing := by
    intro h
    rw [h] at hc
    cases hc
  rw [get_of_read hr, hv]
  simp only [hne, if_false]

end Record

namespace Header

open Json

/-- The rounds of a loop over a written array. -/
theorem rounds_array {items : List Json}
    (hr : read (Utf8.encode (write (.array items))) = .ok (.array items)) (item target : Text) :
    rounds ⟨item, none, target⟩ (write (.array items)) .array =
      .ok (items.zipIdx.map fun e => Scope.ofElement item (.position (e.2 + 1)) e.1) := by
  rw [rounds, Record.elements_of_read hr]
  change Except.ok _ = Except.ok _
  rw [List.zipIdx_map, List.map_map]
  rfl

/-- The rounds of a loop over a written object. -/
theorem rounds_object {ms : List (Text × Json)}
    (hr : read (Utf8.encode (write (.object ms))) = .ok (.object ms)) (item target : Text) :
    rounds ⟨item, none, target⟩ (write (.object ms)) .object =
      .ok (ms.map fun m => Scope.ofElement item (.key m.1) m.2) := by
  rw [rounds, Record.members_of_read hr]
  change Except.ok _ = Except.ok _
  rw [List.map_map]
  rfl

/-- The rounds of a loop over what can be unrolled correspond to its selectors: each one stands for
what its selector leads to. -/
theorem rounds_unrollable {size : Nat} {v : Json} (hv : Readable size depthLimit v)
    (hi : Whole v) (hu : Unrollable v) (hsize : size < Pattern.indexLimit)
    (item target : Text) :
    ∃ scopes, rounds ⟨item, none, target⟩ (Record.describe v).1 (Record.describe v).2 =
        .ok scopes ∧
      List.Forall₂ (fun s t => ∃ b w, s = Scope.ofElement item b w ∧
        Pattern.isContinuation t = true ∧ Record.resolve v t = some w) scopes v.selectors := by
  have hread := hi.faithful.read_write hv
  cases v with
  | array items =>
    refine ⟨_, rounds_array hread item target, ?_⟩
    rw [selectors, List.forall₂_map_left_iff, List.forall₂_map_right_iff, List.forall₂_same]
    rintro ⟨w, k⟩ he
    have hget : items[k]? = some w := List.mem_zipIdx_iff_getElem?.mp he
    have hk : k < items.length := (List.getElem?_eq_some_iff.mp hget).1
    cases hv with
    | array hlength _ =>
      exact ⟨_, w, rfl, rfl, Record.resolve_index (by omega) hget⟩
  | object ms =>
    refine ⟨_, rounds_object hread item target, ?_⟩
    rw [selectors, List.forall₂_map_left_iff, List.forall₂_map_right_iff, List.forall₂_same]
    intro m hm
    cases hv with
    | object hnames _ => exact ⟨_, m.2, rfl, rfl, Record.resolve_key hnames hm (hu m hm)⟩
  | _ => cases hu

end Header

/-! ### Loops and unrollings -/

open Eval (Agree)

variable {σ : Type} {record : Bytes} {document v : Json} {item target : Text} {body : Outline}

/-- What a loop looks up in the record, and the rounds that come of it. -/
theorem Outline.render_loop {host : Option (Host σ)} {scopes : List Scope}
    (hg : Record.get record target = .ok (Record.describe v))
    (hs : Header.rounds ⟨item, none, target⟩ (Record.describe v).1 (Record.describe v).2 =
      .ok scopes) :
    (Outline.loop ⟨item, none, target⟩ body .done).render (.ofRecord record host) = (do
      Eval.note (.loop item target)
      Eval.note (.asked target)
      Eval.concat (fun s => do
        Eval.note (.round s.binding target)
        body.render ((Context.ofRecord record host).enter s)) scopes) := by
  have hlook : (Context.ofRecord record host).lookup target = (do
      Eval.note (.asked target)
      pure ((Record.describe v).1, (Record.describe v).2)) := by
    rw [Context.lookup]
    simp only [Context.ofRecord, Scope.route, hg]
    rfl
  have hrounds : (Eval.lift (.ok scopes) : Eval σ (List Scope)) = pure scopes := rfl
  simp only [Outline.render, hlook, bind_assoc, pure_bind, hs, hrounds, List.append_nil, bind_pure]

/-- The round of an element agrees with the copy of the body for its path. -/
theorem Outline.round_agree (host : Option (Host σ)) (hr : Json.read record = .ok document)
    (hi : document.Whole) (hv : Record.resolve document target = some v)
    (ht : Pattern.IsWritten target) (hitem : Token.isPlainName item = true)
    (hw : body.WellFormed) (hfresh : item ∉ body.names)
    (hhead : ∀ n ∈ body.names, (Pattern.segments target).head? ≠ some n) {selector : Text}
    {w : Json} (hc : Pattern.isContinuation selector = true)
    (hres : Record.resolve v selector = some w) (b : Binding) :
    Agree RenderError.SameVariant Eq
      (body.render ((Context.ofRecord record host).enter (.ofElement item b w)))
      ((body.mapPatterns (Pattern.replaceHead item (target ++ selector))).render
        (.ofRecord record host)) := by
  obtain ⟨head, steps, rfl, hplain, hsteps, hseg⟩ := ht.isPath.split
  have hrest := Pattern.isContinuation_append hsteps.isContinuation hc
  have hpath : Record.resolve document (head ++ (steps ++ selector)) = some w := by
    rw [← List.append_assoc, Record.resolve_append hc, hv]
    exact hres
  have hnames : ∀ n ∈ body.names, Token.isPlainName n = true ∧ n ≠ item ∧ n ≠ head := by
    refine fun n hn => ⟨hw.names n hn, fun he => hfresh (he ▸ hn), fun he => hhead n hn ?_⟩
    rw [hseg, he]
    rfl
  have hC := Context.simulation_inRound host hr hi hplain hrest hpath hitem b
  rw [List.append_assoc]
  exact body.render_agree (Tolerance.sameVariant _) hC hw.patterns hnames ⟨rfl, rfl, nofun, nofun⟩

/-- A loop over what can be unrolled agrees with its unrolling. -/
theorem Outline.loop_agree_unroll (host : Option (Host σ)) (hr : Json.read record = .ok document)
    (hi : document.Whole) (hsize : record.length < Pattern.indexLimit)
    (hv : Record.resolve document target = some v) (hu : v.Unrollable)
    (hw : (Outline.loop ⟨item, none, target⟩ body .done).WellFormed) (hitem : item ∉ body.names)
    (hhead : ∀ n ∈ body.names, (Pattern.segments target).head? ≠ some n) :
    Agree RenderError.SameVariant Eq
      ((Outline.loop ⟨item, none, target⟩ body .done).render (.ofRecord record host))
      ((unroll item target body v.selectors).render (.ofRecord record host)) := by
  have hvr := Record.resolve_induction Record.readable_select (Json.read_readable hr) hv
  have hvi := Record.resolve_induction Record.whole_select hi hv
  have hbody : body.WellFormed := by
    refine ⟨fun p hp => hw.patterns p ?_, fun n hn => hw.names n ?_⟩
    · simp [patterns, hp]
    · simp [names, hn]
  have ht := hw.patterns target List.mem_cons_self
  have hplain := hw.names item List.mem_cons_self
  obtain ⟨scopes, hscopes, hmatch⟩ := Header.rounds_unrollable hvr hvi hu hsize item target
  rw [Outline.render_loop (Record.get_container hr hv hu.isContainer) hscopes, unroll,
    render_sequence]
  refine .note_left rfl (.note_left rfl (Agree.concat ?_))
  rw [List.forall₂_map_right_iff]
  refine hmatch.imp ?_
  rintro _ selector ⟨b, w, rfl, hc, hres⟩
  exact .note_left rfl (round_agree host hr hi hv ht hplain hbody hitem hhead hc hres b)

/-- A template that is a loop over an array or an object of the record and a template that is its
unrolling, up to texts side by side, give the same text and make the same calls, or both fail with
errors of the same variant. Every record that fits into memory has fewer bytes than `indexLimit`. -/
theorem Template.loop_agrees_with_unrolling (host : Option (Host σ)) {source : Text}
    {t u : Template} (ht : parse source = .ok t)
    (hloop : t.outline = .loop ⟨item, none, target⟩ body .done) (hitem : item ∉ body.names)
    (hhead : ∀ n ∈ body.names, (Pattern.segments target).head? ≠ some n)
    (hr : Json.read record = .ok document) (hi : document.Whole)
    (hsize : record.length < Pattern.indexLimit)
    (hv : Record.resolve document target = some v) (hu : v.Unrollable)
    (hunroll : u.outline.joinTexts = (Outline.unroll item target body v.selectors).joinTexts) :
    Agree RenderError.SameVariant Eq (t.render (.ofRecord record host))
      (u.render (.ofRecord record host)) := by
  have hw := wellFormed_of_parse ht
  rw [hloop] at hw
  rw [Template.render, Template.render, hloop]
  exact .trans RenderError.SameVariant.trans
    (Outline.loop_agree_unroll host hr hi hsize hv hu hw hitem hhead)
    (Outline.agree_of_joinTexts hunroll.symm _)

/-- A loop that calls a function on a number, on a string and on an array. -/
theorem Template.loop_over_three_agrees :
    let host : Host Nat := ⟨fun f as n => (.ok (.string (f ++ as.flatten)), n + 1)⟩
    let record := Utf8.encode "\x7b\"a\":[1,\"b\",[2]]\x7d".toList
    ∃ t u, parse "$for x in a$$f(x)$,$end$".toList = .ok t ∧
      parse "$f(a[0])$,$f(a[1])$,$f(a[2])$,".toList = .ok u ∧
      Agree RenderError.SameVariant Eq (t.render (.ofRecord record (some host)))
        (u.render (.ofRecord record (some host))) := by
  intro host record
  let items : List Json := [.integer 1, .string "b".toList, .array [.integer 2]]
  let document : Json := .object [("a".toList, .array items)]
  let call (p : Text) (next : Outline) : Outline :=
    .emit (.call "f".toList [.access p]) (.text ",".toList next)
  let body := call "x".toList .done
  let copies := call "a[0]".toList (call "a[1]".toList (call "a[2]".toList .done))
  have hi : document.Whole :=
    .object (by simp [items, Json.Whole.integer, Json.Whole.array, Json.Whole.string])
  have hr : Json.read record = .ok document := by decide +kernel
  have hsize : record.length < Pattern.indexLimit := by decide
  have hv : Record.resolve document "a".toList = some (.array items) := rfl
  have ht : parse "$for x in a$$f(x)$,$end$".toList =
      .ok (ofOutline (.loop ⟨"x".toList, none, "a".toList⟩ body .done)) := rfl
  have hunroll : copies.joinTexts =
      (Outline.unroll "x".toList "a".toList body (Json.selectors (.array items))).joinTexts := rfl
  refine ⟨_, ofOutline copies, ht, rfl, ?_⟩
  exact loop_agrees_with_unrolling (some host) ht (outline_ofOutline _) nofun nofun hr hi hsize hv
    trivial (by rwa [outline_ofOutline])

end MailMerge
