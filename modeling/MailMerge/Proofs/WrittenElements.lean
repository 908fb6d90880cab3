import MailMerge.Proofs.ElementGrammar
import MailMerge.Proofs.TokenSpelling

/-!
# Elements written as tokens

Every element that a template can hold is written as tokens, with parentheses only where the grammar
asks for them: around a sum that is an operand of a product, and around an operation that is the
right operand of another one of its own level. The parser reads the element back, whatever follows
that does not go on with it; and what it reads is always a phrase of the grammar.
-/

namespace MailMerge

/-! ### String constants -/

namespace Value

/-- A character of a string constant. -/
def escape (c : Char) : Text :=
  if c = '"' then ['\\', '"'] else if c = '\\' then ['\\', '\\']
  else if c = '\n' then ['\\', 'n'] else [c]

/-- A text as a string constant. -/
def quote (t : Text) : Text := '"' :: (t.flatMap escape ++ ['"'])

/-- What can stand between the quotes of a string constant: a backslash before every quote and every
backslash, every line feed as `\n`, and a tab as it is or as `\t`. -/
inductive Escapes : Text → Text → Prop where
  | nil : Escapes [] []
  | quote {s body : Text} (h : Escapes s body) : Escapes ('"' :: s) ('\\' :: '"' :: body)
  | backslash {s body : Text} (h : Escapes s body) : Escapes ('\\' :: s) ('\\' :: '\\' :: body)
  | lineFeed {s body : Text} (h : Escapes s body) : Escapes ('\n' :: s) ('\\' :: 'n' :: body)
  | tab {s body : Text} (h : Escapes s body) : Escapes ('\t' :: s) ('\\' :: 't' :: body)
  | plain {c : Char} {s body : Text} (hc : ¬ (c = '"' ∨ c = '\\' ∨ c = '\n')) (h : Escapes s body) :
      Escapes (c :: s) (c :: body)

theorem escapes_escape (t : Text) : Escapes t (t.flatMap escape) := by
  induction t with
  | nil => exact .nil
  | cons c t ih =>
    rw [List.flatMap_cons]
    by_cases hq : c = '"'
    · subst hq
      exact .quote ih
    · by_cases hb : c = '\\'
      · subst hb
        exact .backslash ih
      · by_cases hn : c = '\n'
        · subst hn
          exact .lineFeed ih
        · have hc : escape c = [c] := by rw [escape, if_neg hq, if_neg hb, if_neg hn]
          rw [hc]
          exact .plain (by simp only [hq, hb, hn, or_self, not_false_eq_true]) ih

theorem Escapes.unescape?_eq {s body : Text} (h : Escapes s body) : unescape? body = some s := by
  induction h with
  | nil => rfl
  | quote _ ih => simp [unescape?, ih]
  | backslash _ ih => simp [unescape?, ih]
  | lineFeed _ ih => simp [unescape?, ih]
  | tab _ ih => simp [unescape?, ih]
  | plain hc _ ih =>
    simp only [not_or] at hc
    simp [unescape?, hc, ih]

theorem Escapes.ofConstant?_eq {s body : Text} (h : Escapes s body) :
    ofConstant? ('"' :: (body ++ ['"'])) = some (.string s) := by
  rw [ofConstant?, Text.before?_append]
  simp [h.unescape?_eq]

theorem ofConstant?_quote (t : Text) : ofConstant? (quote t) = some (.string t) :=
  (escapes_escape t).ofConstant?_eq

end Value

/-! ### Tokens of an element -/

namespace Arithmetic

/-- The symbol that spells an operator. -/
def symbol : Arithmetic → Symbol
  | .add => .plus
  | .sub => .minus
  | .mul => .star
  | .div => .slash

/-- Whether an operator joins the operands of a product. -/
def isProduct : Arithmetic → Bool
  | .add | .sub => false
  | .mul | .div => true

@[simp] theorem isProduct_mul : isProduct .mul = true := rfl

end Arithmetic

namespace Element

open Parsing

/-- Whether the left operand of an operation stands in parentheses: a sum in a product. -/
def groupsLeft (op : Arithmetic) : Element → Bool
  | .arithmetic o _ _ => op.isProduct && !o.isProduct
  | _ => false

/-- Whether the right operand of an operation stands in parentheses: a sum in a product, and an
operation of the same level. -/
def groupsRight (op : Arithmetic) : Element → Bool
  | .arithmetic o _ _ => (op.isProduct && !o.isProduct) || o.isProduct == op.isProduct
  | _ => false

/-- Tokens, between parentheses if `group` says so. -/
def groupIf (group : Bool) (ts : List Token) : List Token :=
  if group then .symbol .openParen :: (ts ++ [.symbol .closeParen]) else ts

/-- The tokens of a number. Its minus sign is a token of its own. -/
def numberTokens : Text → List Token
  | '-' :: n => [.symbol .minus, .number n]
  | n => [.number n]

mutual

/-- An element as tokens. -/
def tokens : Element → List Token
  | .access p => [.path p]
  | .constant _ (.string s) => [.quoted (Value.quote s)]
  | .constant _ (.bool b) => [.bool b]
  | .constant t _ => numberTokens t
  | .arithmetic op l r =>
    groupIf (groupsLeft op l) l.tokens ++ .symbol op.symbol :: groupIf (groupsRight op r) r.tokens
  | .call f as => .path f :: .symbol .openParen :: (tokensAll as ++ [.symbol .closeParen])

/-- Elements with commas between them as tokens. -/
def tokensAll : List Element → List Token
  | [] => []
  | [e] => e.tokens
  | e :: f :: r => e.tokens ++ .symbol .comma :: tokensAll (f :: r)

end

/-- Elements that a template can hold: their constants are those of some constant token, a number
perhaps with a minus sign before it, and their functions have plain names. -/
inductive Writable : Element → Prop where
  | access (p : Text) : Writable (.access p)
  | number {t : Text} {x : Float} (ht : Value.ofConstant? t = some (.number x)) :
      Writable (.constant t (.number x))
  | string (s : Text) : Writable (ofValue (.string s))
  | bool (b : Bool) : Writable (ofValue (.bool b))
  | arithmetic (op : Arithmetic) {l r : Element} (hl : Writable l) (hr : Writable r) :
      Writable (.arithmetic op l r)
  | call {f : Text} {as : List Element} (hf : Token.isPlainName f = true)
      (ha : ∀ a ∈ as, Writable a) : Writable (.call f as)

/-! ### Parentheses -/

section Levels

variable {op : Arithmetic}

theorem groupsLeft_sum (h : op.isProduct = false) (l : Element) : groupsLeft op l = false := by
  cases l <;> simp [groupsLeft, h]

theorem groupsRight_sum (h : op.isProduct = false) (r : Element) :
    groupsRight op r = groupsLeft .mul r := by
  cases r <;> simp [groupsRight, groupsLeft, h]

theorem groupsLeft_product (h : op.isProduct = true) (l : Element) :
    groupsLeft op l = groupsLeft .mul l := by
  cases l <;> simp [groupsLeft, h]

theorem groupsRight_product (h : op.isProduct = true) (r : Element) :
    groupsRight op r = groupsRight .mul r := by
  cases r <;> simp [groupsRight, h]

theorem sumJoin?_symbol (h : op.isProduct = false) :
    sumJoin? (.symbol op.symbol) = some (.arithmetic op) := by
  cases op with
  | add | sub => rfl
  | mul | div => cases h

theorem productJoin?_symbol (h : op.isProduct = true) :
    productJoin? (.symbol op.symbol) = some (.arithmetic op) := by
  cases op with
  | add | sub => cases h
  | mul | div => rfl

end Levels

/-! ### The tokens are a phrase -/

/-- Products of operands. -/
abbrev Product : List Located → Element → Prop := Chained Operand productJoin?

/-- Tokens that are a phrase for an element, and a product or an operand where no parentheses are
put around them in a product. -/
structure Reads (us : List Located) (e : Element) : Prop where
  phrase : Phrase us e
  product : groupsLeft .mul e = false → Product us e
  operand : groupsRight .mul e = false → Operand us e

namespace Reads

variable {us : List Located} {e l r : Element} {op : Arithmetic}

theorem of_operand (h : Operand us e) : Reads us e where
  phrase := .one (.one h)
  product _ := .one h
  operand _ := h

theorem sum {u v : List Located} {t : Located} (h : op.isProduct = false)
    (ht : t.token = .symbol op.symbol) (hl : Phrase u l) (hr : Product v r) :
    Reads (u ++ t :: v) (.arithmetic op l r) where
  phrase := .more hl (by rw [ht, sumJoin?_symbol h]) hr
  product hg := by simp [groupsLeft, h] at hg
  operand hg := by simp [groupsRight, h] at hg

theorem mul {u v : List Located} {t : Located} (h : op.isProduct = true)
    (ht : t.token = .symbol op.symbol) (hl : Product u l) (hr : Operand v r) :
    Reads (u ++ t :: v) (.arithmetic op l r) where
  phrase := .one (.more hl (by rw [ht, productJoin?_symbol h]) hr)
  product _ := .more hl (by rw [ht, productJoin?_symbol h]) hr
  operand hg := by simp [groupsRight, h] at hg

end Reads

/-- Whatever list has the tokens of an element is a phrase for it. -/
def IsRead (e : Element) : Prop :=
  ∀ ⦃us : List Located⦄, us.map Located.token = e.tokens → Reads us e

section Operands

variable {us : List Located} {e : Element}

theorem IsRead.group (h : IsRead e) (hus : us.map Located.token = groupIf true e.tokens) :
    Operand us e := by
  obtain ⟨s, vs, rfl, hs, hvs⟩ := List.map_eq_cons_iff.mp hus
  obtain ⟨u, ts, rfl, hu, hts⟩ := List.map_eq_append_iff.mp hvs
  obtain ⟨t, rfl, ht⟩ := List.map_eq_singleton_iff.mp hts
  exact .group hs (h hu).phrase ht

/-- A sum that is an operand of a product stands in parentheses. -/
theorem IsRead.product (h : IsRead e)
    (hus : us.map Located.token = groupIf (groupsLeft .mul e) e.tokens) : Product us e := by
  cases hg : groupsLeft .mul e with
  | true =>
    rw [hg] at hus
    exact .one (h.group hus)
  | false =>
    rw [hg] at hus
    exact (h hus).product hg

/-- An operation that is the right operand of a product stands in parentheses. -/
theorem IsRead.operand (h : IsRead e)
    (hus : us.map Located.token = groupIf (groupsRight .mul e) e.tokens) : Operand us e := by
  cases hg : groupsRight .mul e with
  | true =>
    rw [hg] at hus
    exact h.group hus
  | false =>
    rw [hg] at hus
    exact (h hus).operand hg

end Operands

theorem isRead_arithmetic (op : Arithmetic) {l r : Element} (hl : IsRead l) (hr : IsRead r) :
    IsRead (.arithmetic op l r) := by
  intro us hus
  rw [tokens] at hus
  obtain ⟨u, ws, rfl, hu, hws⟩ := List.map_eq_append_iff.mp hus
  obtain ⟨t, v, rfl, ht, hv⟩ := List.map_eq_cons_iff.mp hws
  cases hop : op.isProduct with
  | false =>
    rw [groupsLeft_sum hop] at hu
    rw [groupsRight_sum hop] at hv
    exact .sum hop ht (hl hu).phrase (hr.product hv)
  | true =>
    rw [groupsLeft_product hop] at hu
    rw [groupsRight_product hop] at hv
    exact .mul hop ht (hl.product hu) (hr.operand hv)

theorem listed_tokens {as : List Element} (h : ∀ a ∈ as, IsRead a) (hne : as ≠ [])
    {us : List Located} (hus : us.map Located.token = tokensAll as) : Listed Phrase us as := by
  induction as generalizing us with
  | nil => exact absurd rfl hne
  | cons e as ih =>
    obtain ⟨he, has⟩ := List.forall_mem_cons.mp h
    cases as with
    | nil => exact .one (he hus).phrase
    | cons f r =>
      rw [tokensAll] at hus
      obtain ⟨u, ws, rfl, hu, hws⟩ := List.map_eq_append_iff.mp hus
      obtain ⟨t, v, rfl, ht, hv⟩ := List.map_eq_cons_iff.mp hws
      exact .more (he hu).phrase ht (ih has (List.cons_ne_nil f r) hv)

theorem isRead_call {f : Text} {as : List Element} (hf : Token.isPlainName f = true)
    (h : ∀ a ∈ as, IsRead a) : IsRead (.call f as) := by
  intro us hus
  rw [tokens] at hus
  obtain ⟨⟨p, line⟩, vs, rfl, hp, hvs⟩ := List.map_eq_cons_iff.mp hus
  obtain ⟨s, ws, rfl, hs, hws⟩ := List.map_eq_cons_iff.mp hvs
  obtain ⟨u, ts, rfl, hu, hts⟩ := List.map_eq_append_iff.mp hws
  obtain ⟨t, rfl, ht⟩ := List.map_eq_singleton_iff.mp hts
  cases hp
  by_cases hne : as = []
  · subst hne
    obtain rfl := List.map_eq_nil_iff.mp hu
    exact .of_operand (.callEmpty hf hs ht)
  · exact .of_operand (.call hf hs (listed_tokens h hne hu) ht)

/-- An element that is a single token is an operand. -/
theorem isRead_single {t : Token} {e : Element} (he : e.tokens = [t])
    (ho : ∀ line, Operand [⟨t, line⟩] e) : IsRead e := by
  intro us hus
  rw [he] at hus
  obtain ⟨⟨k, line⟩, rfl, hk⟩ := List.map_eq_singleton_iff.mp hus
  cases hk
  exact .of_operand (ho line)

theorem isRead_number {t : Text} {x : Float} (ht : Value.ofConstant? t = some (.number x)) :
    IsRead (.constant t (.number x)) := by
  by_cases hminus : ∃ n, t = '-' :: n
  · obtain ⟨n, rfl⟩ := hminus
    intro us hus
    obtain ⟨⟨m, line⟩, vs, rfl, hm, hvs⟩ := List.map_eq_cons_iff.mp hus
    obtain ⟨⟨k, line'⟩, rfl, hk⟩ := List.map_eq_singleton_iff.mp hvs
    cases hm
    cases hk
    exact .of_operand (.negative ht)
  · have htokens : numberTokens t = [.number t] := by
      unfold numberTokens
      split
      · next n => exact absurd ⟨n, rfl⟩ hminus
      · rfl
    exact isRead_single htokens fun line => .number ht

/-- The tokens of an element are a phrase for it, by induction on the element. -/
theorem Writable.isRead {e : Element} (h : Writable e) : IsRead e := by
  induction h with
  | access p => exact isRead_single rfl fun line => .access
  | number ht => exact isRead_number ht
  | string s => exact isRead_single rfl fun line => .quoted (Value.ofConstant?_quote s)
  | bool b => exact isRead_single rfl fun line => .bool
  | arithmetic op _ _ hl hr => exact isRead_arithmetic op hl hr
  | call hf _ ih => exact isRead_call hf ih

/-! ### Reading written elements -/

/-- The tokens that go on with an element. -/
def goOn : List Token :=
  [.symbol .plus, .symbol .minus, .symbol .star, .symbol .slash, .symbol .openParen]

theorem ends_of_not_mem {t : Token} (h : t ∉ goOn) : Ends t := by
  cases t with
  | symbol m =>
    cases m with
    | plus | minus | star | slash | openParen => exact absurd (by decide) h
    | _ => exact ⟨⟨by decide, rfl⟩, rfl⟩
  | _ => exact ⟨⟨by rintro ⟨⟩, rfl⟩, rfl⟩

/-! ### What is read can be written -/

theorem number_of_constant {c : Char} {r : Text} {v : Value} (hc : c.isDigit = true ∨ c = '-')
    (h : Value.ofConstant? (c :: r) = some v) : ∃ x, v = .number x := by
  have hne : c ≠ '"' ∧ c ≠ 't' ∧ c ≠ 'f' := by
    rcases hc with hc | rfl
    · refine ⟨?_, ?_, ?_⟩ <;> rintro rfl <;> cases hc
    · decide
  unfold Value.ofConstant? at h
  split at h
  · next he => exact absurd (List.cons.inj he).1 hne.1
  · split at h
    · next he => exact absurd (List.cons.inj he).1 hne.2.1
    · split at h
      · next he => exact absurd (List.cons.inj he).1 hne.2.2
      · obtain ⟨x, -, rfl⟩ := Option.map_eq_some_iff.mp h
        exact ⟨x, rfl⟩

theorem string_of_constant {r : Text} {v : Value} (h : Value.ofConstant? ('"' :: r) = some v) :
    ∃ s, v = .string s := by
  simp only [Value.ofConstant?, Option.bind_eq_bind, Option.bind_eq_some_iff] at h
  obtain ⟨body, -, s, -, hv⟩ := h
  exact ⟨s, (Option.some.inj hv).symm⟩

/-- Whether the tokens of a list are spelled by their rules, as all are that the lexer finds. -/
def Lexical (us : List Located) : Prop := ∀ t ∈ us, t.token.IsSpelled

section Lexical

variable {n : Nat}

/-- What is chained of writable operands can be written. -/
theorem writable_chained {Item : List Located → Element → Prop}
    {join? : Token → Option (Element → Element → Element)}
    (hj : ∀ {t f a b}, join? t = some f → Writable a → Writable b → Writable (f a b))
    (ho : ∀ {v b}, v.length ≤ n → Lexical v → Item v b → Writable b) {u : List Located}
    {e : Element} (h : Chained Item join? u e) (hn : u.length ≤ n) (hl : Lexical u) :
    Writable e := by
  induction h with
  | one hu => exact ho hn hl hu
  | @more u v t f a b hu ht hv ih =>
    rw [List.length_append, List.length_cons] at hn
    obtain ⟨hlu, hlv⟩ := List.forall_mem_append.mp hl
    have ha : Writable a := ih (by omega) hlu
    exact hj ht ha (ho (by omega) (List.forall_mem_cons.mp hlv).2 hv)

theorem writable_product {t : Token} {f : Element → Element → Element} {a b : Element}
    (h : productJoin? t = some f) (ha : Writable a) (hb : Writable b) : Writable (f a b) := by
  unfold productJoin? at h
  split at h <;> cases h <;> exact .arithmetic _ ha hb

theorem writable_sum {t : Token} {f : Element → Element → Element} {a b : Element}
    (h : sumJoin? t = some f) (ha : Writable a) (hb : Writable b) : Writable (f a b) := by
  unfold sumJoin? at h
  split at h <;> cases h <;> exact .arithmetic _ ha hb

variable (ho : ∀ {v b}, v.length ≤ n → Lexical v → Operand v b → Writable b)
include ho

theorem writable_phrase {u : List Located} {e : Element} (h : Phrase u e) (hn : u.length ≤ n)
    (hl : Lexical u) : Writable e :=
  writable_chained writable_sum (fun hv hlv hc => writable_chained writable_product ho hc hv hlv)
    h hn hl

theorem writable_listed {u : List Located} {as : List Element} (h : Listed Phrase u as)
    (hn : u.length ≤ n) (hl : Lexical u) : ∀ a ∈ as, Writable a := by
  induction h with
  | one hu => exact List.forall_mem_singleton.mpr (writable_phrase ho hu hn hl)
  | @more u v t e es hu ht hv ih =>
    rw [List.length_append, List.length_cons] at hn
    obtain ⟨hlu, hlv⟩ := List.forall_mem_append.mp hl
    exact List.forall_mem_cons.mpr ⟨writable_phrase ho hu (by omega) hlu,
      ih (by omega) (List.forall_mem_cons.mp hlv).2⟩

end Lexical

theorem Lexical.within {us : List Located} {t : Located} (ts : List Located)
    (h : Lexical (ts ++ (us ++ [t]))) : Lexical us :=
  (List.forall_mem_append.mp (List.forall_mem_append.mp h).2).1

/-- What an operand is read as can be written: by induction on how many tokens it has. -/
theorem writable_operand (n : Nat) : ∀ {u : List Located} {e : Element}, u.length < n →
    Lexical u → Operand u e → Writable e := by
  induction n with
  | zero => exact fun hn => absurd hn (Nat.not_lt_zero _)
  | succ n ih =>
    intro u e hn hl h
    cases h with
    | @number k line v hv =>
      have hk : Token.IsNumber k := hl _ List.mem_cons_self
      obtain ⟨c, r, rfl, hc⟩ := hk.head
      obtain ⟨x, rfl⟩ := number_of_constant (.inl hc) hv
      exact .number hv
    | @quoted q line v hv =>
      obtain @⟨body, -⟩ : Token.IsQuoted q := hl _ List.mem_cons_self
      obtain ⟨s, rfl⟩ := string_of_constant hv
      exact .string s
    | @bool b line => exact .bool b
    | negative hv =>
      obtain ⟨x, rfl⟩ := number_of_constant (.inr rfl) hv
      exact .number hv
    | access => exact .access _
    | callEmpty hf _ _ => exact .call hf fun a ha => absurd ha List.not_mem_nil
    | @call f line s t u as hf hs hu ht =>
      simp only [List.length_cons, List.length_append] at hn
      have hlu : Lexical u := Lexical.within [_, s] hl
      exact .call hf (writable_listed (fun hv => ih (by omega)) hu (Nat.le_refl _) hlu)
    | @group s t u e hs hu ht =>
      simp only [List.length_cons, List.length_append] at hn
      have hlu : Lexical u := Lexical.within [s] hl
      exact writable_phrase (fun hv => ih (by omega)) hu (Nat.le_refl _) hlu

/-! ### Reading and writing -/

/-- The parser reads an element back from its tokens, and leaves what follows them, if that does not
go on with the element. What it takes from a list of tokens is a phrase of the grammar for the
element that it gives; and if the tokens are some that the lexer can find, the element can be
written. -/
theorem parse_tokens :
    (∀ (e : Element), Writable e → ∀ (us rest : List Located), us.map Located.token = e.tokens →
      (∀ t ∈ rest.head?, t.token ∉ goOn) → parse (us ++ rest) = .ok (e, rest)) ∧
    ∀ (ts : List Located) (e : Element) (rest : List Located), parse ts = .ok (e, rest) →
      ∃ us, ts = us ++ rest ∧ Phrase us e ∧ (Lexical us → Writable e) := by
  constructor
  · intro e he us rest hus hrest
    exact parse_complete (he.isRead hus).phrase fun t ht => ends_of_not_mem (hrest t ht)
  · intro ts e rest h
    obtain ⟨us, rfl, hus⟩ := parse_sound h
    exact ⟨us, rfl, hus, writable_phrase (fun hv => writable_operand _ (Nat.lt_succ_of_le hv)) hus
      (Nat.le_refl _)⟩

/-- A product of a sum and a quotient, less a difference of two calls, before the word `is`. -/
theorem parse_tokens_difference :
    ∃ x y : Float, Value.ofConstant? "2".toList = some (.number x) ∧
      Value.ofConstant? "-1.5".toList = some (.number y) ∧
      let product : Element := .arithmetic .mul
        (.arithmetic .add (.access "a".toList) (.constant "2".toList (.number x)))
        (.arithmetic .div (.access "b->c".toList) (.constant "-1.5".toList (.number y)))
      let calls : Element := .arithmetic .sub
        (.call "f".toList [ofValue (.string "q\"".toList), ofValue (.bool true)])
        (.call "g".toList [])
      let e : Element := .arithmetic .sub product calls
      let us : List Located := List.map (fun t => ⟨t, 1⟩)
        [.symbol .openParen, .path "a".toList, .symbol .plus, .number "2".toList,
          .symbol .closeParen, .symbol .star, .symbol .openParen, .path "b->c".toList,
          .symbol .slash, .symbol .minus, .number "1.5".toList, .symbol .closeParen,
          .symbol .minus, .symbol .openParen, .path "f".toList, .symbol .openParen,
          .quoted "\"q\\\"\"".toList, .symbol .comma, .bool true, .symbol .closeParen,
          .symbol .minus, .path "g".toList, .symbol .openParen, .symbol .closeParen,
          .symbol .closeParen]
      let rest : List Located := [⟨.keyword .is_, 2⟩, ⟨.path "number".toList, 2⟩]
      Writable e ∧ parse (us ++ rest) = .ok (e, rest) ∧
        ∃ vs, us ++ rest = vs ++ rest ∧ Phrase vs e := by
  obtain ⟨x, hx⟩ : ∃ x, Value.ofConstant? "2".toList = some (.number x) := ⟨_, rfl⟩
  obtain ⟨y, hy⟩ : ∃ y, Value.ofConstant? "-1.5".toList = some (.number y) := ⟨_, rfl⟩
  refine ⟨x, y, hx, hy, ?_⟩
  intro product calls e us rest
  have hproduct : Writable product :=
    .arithmetic .mul (.arithmetic .add (.access _) (.number hx))
      (.arithmetic .div (.access _) (.number hy))
  have hcalls : Writable calls := by
    refine .arithmetic .sub (.call rfl ?_) (.call rfl fun a ha => absurd ha List.not_mem_nil)
    exact List.forall_mem_cons.mpr ⟨.string _, List.forall_mem_singleton.mpr (.bool true)⟩
  have he : Writable e := .arithmetic .sub hproduct hcalls
  have hparse : parse (us ++ rest) = .ok (e, rest) :=
    parse_tokens.1 e he us rest rfl (by rintro t ⟨⟩; decide)
  obtain ⟨vs, hvs, hphrase, -⟩ := parse_tokens.2 _ _ _ hparse
  exact ⟨he, hparse, vs, hvs, hphrase⟩

end Element
end MailMerge
