import Multicast.Proofs.Words
import Multicast.Syntax.TypeExpr

/-!
# What parsers read

`p.Reads words post follow` says of a parser that, from tokens with the given words, it reads exactly
these tokens and makes a value with the property `post` of them, provided that the token behind them
is of a kind that `follow` admits. Where the tokens stand does not matter, and neither does what
comes later: parsers look one token past what they read, and never further.

There is one rule for each primitive, for the case that another parser goes on behind it. A parser
that is written with them is then taken through its words step by step.

`p.Reports words post follow` says the same, and `post` may speak of the names of the references that
are reported. `Reads` is the case in which it does not, and has its rules from there.

## What a rule looks like

A rule is about a primitive with another parser behind it: from words with the word of the primitive in
front, the whole reads if what is behind reads from the rest. Looking ahead is the one thing that needs
care. What a parser sees is the kind of the first of its words, or of the token behind them if there are
none left (`leading`); so a rule for looking ahead asks for its answer under all kinds that may follow.

Failures are not spoken of here. A parser that reads some words may refuse others, and for other
statements that matters (`Multicast.Proofs.Outcomes`).
-/

namespace Multicast.Syntax

open Source

/-- The kind of the first of these words, or else the kind that follows them. -/
def leading (words : List Word) (next : Option Kind) : Option Kind :=
  match words with
  | [] => next
  | w :: _ => some w.kind

@[simp] theorem leading_nil (next : Option Kind) : leading [] next = next := rfl

@[simp] theorem leading_cons (w : Word) (words : List Word) (next : Option Kind) :
    leading (w :: words) next = some w.kind := rfl

/-- The kind of the token that comes next. -/
def nextKind (tokens : List Token) : Option Kind :=
  tokens.head?.map Token.kind

/-- Where the next token has a kind, there is a next token. -/
theorem exists_cons_of_nextKind {kind : Kind} {tokens : List Token} (h : nextKind tokens = some kind) :
    ∃ t rest, tokens = t :: rest ∧ t.kind = kind := by
  cases tokens with
  | nil => cases h
  | cons t rest => exact ⟨t, rest, rfl, Option.some.inj h⟩

/-- The next token is the first one with these words, or else the first one behind them. -/
theorem nextKind_append {tokens : List Token} {words : List Word}
    (h : tokens.map Token.word = words) (rest : List Token) :
    nextKind (tokens ++ rest) = leading words (nextKind rest) := by
  subst h
  cases tokens <;> rfl

/-- Tokens whose words begin with one begin with a token of that word. -/
theorem cons_of_map_word {tokens : List Token} {w : Word} {words : List Word}
    (h : tokens.map Token.word = w :: words) :
    ∃ t ts, tokens = t :: ts ∧ t.word = w ∧ ts.map Token.word = words :=
  List.map_eq_cons_iff.1 h

namespace Parser

variable {α β : Type} {words more : List Word} {w : Word} {follow : Option Kind → Prop}
  {post : α → Prop}

/-- Behind a parser that reports nothing, the next one answers. -/
theorem bind_of_ok {p : Parser β} {f : β → Parser α} {tokens rest : List Token} {b : β}
    (h : p tokens = .ok ⟨b, [], rest⟩) : (p >>= f) tokens = f b rest := by
  change (p >>= f).run tokens = _
  rw [run_bind, run, h]
  dsimp only [run]
  cases f b rest <;> rfl

/-- What it takes to read with one parser behind another one. -/
theorem bind_eq_ok {p : Parser β} {f : β → Parser α} {tokens : List Token} {parsed : Parsed α} :
    (p >>= f) tokens = .ok parsed ↔ ∃ first second, p tokens = .ok first ∧
      f first.value first.rest = .ok second ∧
      parsed = ⟨second.value, first.references ++ second.references, second.rest⟩ := by
  change (p >>= f).run tokens = _ ↔ _
  rw [run_bind]
  simp only [run]
  constructor
  · intro h
    cases hfirst : p tokens with
    | error e => rw [hfirst] at h; cases h
    | ok first =>
      rw [hfirst] at h
      dsimp only at h
      cases hsecond : f first.value first.rest with
      | error e => rw [hsecond] at h; cases h
      | ok second =>
        rw [hsecond] at h
        exact ⟨first, second, rfl, hsecond, (Except.ok.inj h).symm⟩
  · rintro ⟨first, second, hfirst, hsecond, rfl⟩
    rw [hfirst]
    dsimp only
    rw [hsecond]

/-- Making something of what is read takes no more than reading it. -/
theorem bind_pure_eq_ok {p : Parser β} {make : β → α} {tokens : List Token} {parsed : Parsed α} :
    (p >>= fun b => Pure.pure (make b)) tokens = .ok parsed ↔ ∃ first, p tokens = .ok first ∧
      parsed = ⟨make first.value, first.references, first.rest⟩ := by
  rw [bind_eq_ok]
  constructor
  · rintro ⟨first, second, hfirst, hsecond, rfl⟩
    cases hsecond
    exact ⟨first, hfirst, by rw [List.append_nil]⟩
  · rintro ⟨first, hfirst, rfl⟩
    exact ⟨first, ⟨make first.value, [], first.rest⟩, hfirst, rfl, by rw [List.append_nil]⟩

/-- A token of the kind that may come is read. -/
theorem accept_of_eq {kind : Kind} {t : Token} (h : t.kind = kind) (rest : List Token) :
    accept kind (t :: rest) = .ok ⟨true, [], rest⟩ := by
  simp [accept, at?, peek, skip, Bind.bind, andThen, Pure.pure, done, h]

/-- A token of another kind is left where it is. -/
theorem accept_of_ne {kind : Kind} {tokens : List Token} (h : nextKind tokens ≠ some kind) :
    accept kind tokens = .ok ⟨false, [], tokens⟩ := by
  rw [nextKind, List.head?_eq_getElem?] at h
  simp [accept, at?, peek, Bind.bind, andThen, Pure.pure, done, h]

/-- A semicolon is passed. -/
theorem skipSemicolons_cons {t : Token} (ht : t.kind = .semicolon) (rest : List Token) :
    skipSemicolons (t :: rest) = skipSemicolons rest := by
  simp [skipSemicolons, ht]

/-- Where there is no semicolon nothing is passed. -/
theorem skipSemicolons_of_ne {tokens : List Token} (h : nextKind tokens ≠ some .semicolon) :
    skipSemicolons tokens = .ok ⟨(), [], tokens⟩ := by
  cases tokens with
  | nil => rfl
  | cons t rest =>
    have ht : t.kind ≠ .semicolon := by simpa [nextKind] using h
    simp [skipSemicolons, ht]

/-- Whether the next token is of a kind is told without reading it. -/
theorem at?_eq (kind : Kind) (tokens : List Token) :
    at? kind tokens = .ok ⟨nextKind tokens == some kind, [], tokens⟩ := by
  rw [nextKind, List.head?_eq_getElem?]
  rfl

/-- Names with commas between them, with no comma behind the last one, and what is behind it. -/
inductive NameList : List Token → List Token → List Token → Prop
  | last {t : Token} {rest : List Token} (ht : t.kind = .identifier)
    (hrest : nextKind rest ≠ some .comma) : NameList (t :: rest) [t] rest
  | more {t comma : Token} {tokens ts rest : List Token} (ht : t.kind = .identifier)
    (hcomma : comma.kind = .comma) (h : NameList tokens ts rest) :
    NameList (t :: comma :: tokens) (t :: ts) rest

/-- **Names are read as far as commas follow.** -/
theorem names_eq_ok {tokens : List Token} {parsed : Parsed (List Token)} :
    names tokens = .ok parsed ↔ ∃ ts rest, parsed = ⟨ts, [], rest⟩ ∧ NameList tokens ts rest := by
  constructor
  · intro h
    fun_induction names tokens generalizing parsed with
    | case1 t comma rest ht hcomma ih =>
      cases hmore : names rest with
      | error e =>
        rw [hmore] at h
        cases h
      | ok more =>
        rw [hmore] at h
        cases h
        obtain ⟨ts, rest, rfl, hnames⟩ := ih hmore
        exact ⟨_, _, rfl, .more ht hcomma hnames⟩
    | case2 t comma rest ht hcomma =>
      cases h
      exact ⟨_, _, rfl, .last ht (by simpa [nextKind] using hcomma)⟩
    | case4 t ht =>
      cases h
      exact ⟨_, _, rfl, .last ht (by simp [nextKind])⟩
    | case3 | case5 | case6 => cases h
  · rintro ⟨ts, rest, rfl, h⟩
    induction h with
    | @last t rest ht hrest =>
      cases rest with
      | nil => rw [names, if_pos ht]
      | cons u rest =>
        have hu : u.kind ≠ .comma := by simpa [nextKind] using hrest
        rw [names, if_pos ht, if_neg hu]
    | more ht hcomma h ih =>
      rw [names, if_pos ht, if_pos hcomma, ih]
      rfl

/-- **A parser reads words and reports names**: from tokens with these words, and a token of an
admitted kind behind them, it makes a value, reports references, and leaves what is behind. -/
def Reports (p : Parser α) (words : List Word) (post : α → List String → Prop)
    (follow : Option Kind → Prop) : Prop :=
  ∀ tokens rest, tokens.map Token.word = words → follow (nextKind rest) →
    ∃ value references, p (tokens ++ rest) = .ok ⟨value, references, rest⟩ ∧
      post value (references.map Reference.name)

/-- **A parser reads words**: from tokens with these words, and a token of an admitted kind behind
them, it makes a value with a property, and leaves what is behind. -/
def Reads (p : Parser α) (words : List Word) (post : α → Prop) (follow : Option Kind → Prop) :
    Prop :=
  p.Reports words (fun a _ => post a) follow

/-! ### Reading and reporting -/

namespace Reports

variable {post : α → List String → Prop}

/-- Less may be said of the value, and more may be asked of the token behind. -/
theorem imp {p : Parser α} {post' : α → List String → Prop} {follow' : Option Kind → Prop}
    (h : p.Reports words post follow) (hpost : ∀ a names, post a names → post' a names)
    (hfollow : ∀ next, follow' next → follow next) : p.Reports words post' follow' := by
  intro tokens rest htokens hrest
  obtain ⟨value, references, heq, hvalue⟩ := h tokens rest htokens (hfollow _ hrest)
  exact ⟨value, references, heq, hpost _ _ hvalue⟩

theorem pure {a : α} (h : post a []) : (Pure.pure a : Parser α).Reports [] post follow := by
  intro tokens rest htokens _
  obtain rfl := List.map_eq_nil_iff.1 htokens
  exact ⟨a, [], rfl, h⟩

/-- What two parsers read one after the other. -/
theorem bind {p : Parser α} {f : α → Parser β} {post' : β → List String → Prop}
    {before : Option Kind → Prop} (hp : p.Reports words post before)
    (hnext : ∀ next, follow next → before (leading more next))
    (hf : ∀ a names, post a names →
      (f a).Reports more (fun b others => post' b (names ++ others)) follow) :
    (p >>= f).Reports (words ++ more) post' follow := by
  intro tokens rest htokens hrest
  obtain ⟨ts, us, rfl, hts, hus⟩ := List.map_eq_append_iff.1 htokens
  have hbefore : before (nextKind (us ++ rest)) := by
    rw [nextKind_append hus]
    exact hnext _ hrest
  obtain ⟨a, refs, ha, hpost⟩ := hp ts (us ++ rest) hts hbefore
  obtain ⟨b, refs', hb, hpost'⟩ := hf a _ hpost us rest hus hrest
  refine ⟨b, refs ++ refs', ?_, by rwa [List.map_append]⟩
  change (p >>= f).run _ = _
  rw [run_bind, run, List.append_assoc, ha]
  simp only [run, hb]

/-- What a parser reads that makes something of the value of another one. -/
theorem map {p : Parser α} {f : α → Parser β} {post' : β → List String → Prop}
    (hp : p.Reports words post follow)
    (hf : ∀ a names, post a names →
      (f a).Reports [] (fun b others => post' b (names ++ others)) follow) :
    (p >>= f).Reports words post' follow := by
  have h : (p >>= f).Reports (words ++ []) post' follow := hp.bind (fun _ h => h) hf
  rwa [List.append_nil] at h

/-- What is read behind a parser that reads nothing. -/
theorem before {p : Parser β} {f : β → Parser α} {post' : β → List String → Prop}
    (hp : p.Reports [] post' fun _ => True)
    (hf : ∀ b names, post' b names →
      (f b).Reports words (fun a others => post a (names ++ others)) follow) :
    (p >>= f).Reports words post follow :=
  bind hp (fun _ _ => trivial) hf

theorem pure_bind {b : β} {f : β → Parser α} (h : (f b).Reports words post follow) :
    ((Pure.pure b : Parser β) >>= f).Reports words post follow := by
  have hp : (Pure.pure b : Parser β).Reports [] (fun c names => c = b ∧ names = []) fun _ => True :=
    .pure ⟨rfl, rfl⟩
  refine before hp ?_
  rintro _ _ ⟨rfl, rfl⟩
  exact h

/-- A step that reads one token or none, and knows what it makes of it. -/
theorem step {p : Parser β} {f : β → Parser α} {ts tokens rest : List Token} (b : β)
    (hp : p (ts ++ rest) = .ok ⟨b, [], tokens ++ rest⟩)
    (hf : ∃ value references, f b (tokens ++ rest) = .ok ⟨value, references, rest⟩ ∧
      post value (references.map Reference.name)) :
    ∃ value references, (p >>= f) (ts ++ rest) = .ok ⟨value, references, rest⟩ ∧
      post value (references.map Reference.name) := by
  rw [bind_of_ok hp]
  exact hf

/-- A token is passed, whatever its word. -/
theorem skip {f : Unit → Parser α} (h : (f ()).Reports words post follow) :
    (Parser.skip >>= f).Reports (w :: words) post follow := by
  intro tokens rest htokens hrest
  obtain ⟨t, ts, rfl, -, hts⟩ := cons_of_map_word htokens
  exact step () rfl (h ts rest hts hrest)

/-- The next token is the first one of the words, or one that may follow them. -/
theorem peek {f : Option Kind → Parser α}
    (h : ∀ next, follow next → (f (leading words next)).Reports words post follow) :
    (Parser.peek 0 >>= f).Reports words post follow := by
  intro tokens rest htokens hrest
  have hnext := nextKind_append htokens rest
  refine step (leading words (nextKind rest)) ?_ (h _ hrest tokens rest htokens hrest)
  rw [Parser.peek, ← hnext, nextKind, List.head?_eq_getElem?]

/-- Looking past the next token. -/
theorem peek_one {f : Option Kind → Parser α}
    (h : ∀ next, follow next → (f (leading words next)).Reports (w :: words) post follow) :
    (Parser.peek 1 >>= f).Reports (w :: words) post follow := by
  intro tokens rest htokens hrest
  obtain ⟨t, ts, rfl, -, hts⟩ := cons_of_map_word htokens
  have hnext := nextKind_append hts rest
  refine step (leading words (nextKind rest)) ?_
    (h _ hrest (t :: ts) rest htokens hrest)
  rw [Parser.peek, ← hnext, nextKind, List.head?_eq_getElem?]
  rfl

/-- The next token is of this kind, whatever follows the words. -/
theorem at_eq {kind : Kind} {f : Bool → Parser α}
    (heq : ∀ next, follow next → leading words next = some kind)
    (h : (f true).Reports words post follow) :
    (Parser.at? kind >>= f).Reports words post follow := by
  intro tokens rest htokens hrest
  have hkind := heq _ hrest
  rw [← nextKind_append htokens rest, nextKind, List.head?_eq_getElem?] at hkind
  refine step true ?_ (h tokens rest htokens hrest)
  simp [Parser.at?, Parser.peek, Bind.bind, andThen, Pure.pure, done, hkind]

/-- The next token is not of this kind, whatever follows the words. -/
theorem at_ne {kind : Kind} {f : Bool → Parser α}
    (hne : ∀ next, follow next → leading words next ≠ some kind)
    (h : (f false).Reports words post follow) :
    (Parser.at? kind >>= f).Reports words post follow := by
  intro tokens rest htokens hrest
  have hkind := hne _ hrest
  rw [← nextKind_append htokens rest, nextKind, List.head?_eq_getElem?] at hkind
  refine step false ?_ (h tokens rest htokens hrest)
  simp [Parser.at?, Parser.peek, Bind.bind, andThen, Pure.pure, done, hkind]

/-- A token of the kind that is asked for is read. -/
theorem accept_eq {kind : Kind} {f : Bool → Parser α} (hw : w.kind = kind)
    (h : (f true).Reports words post follow) :
    (Parser.accept kind >>= f).Reports (w :: words) post follow := by
  intro tokens rest htokens hrest
  obtain ⟨t, ts, rfl, ht, hts⟩ := cons_of_map_word htokens
  have hkind : t.kind = kind := by rw [← hw, ← ht]; rfl
  exact step true (accept_of_eq hkind _) (h ts rest hts hrest)

/-- A token of another kind is left. -/
theorem accept_ne {kind : Kind} {f : Bool → Parser α}
    (hne : ∀ next, follow next → leading words next ≠ some kind)
    (h : (f false).Reports words post follow) :
    (Parser.accept kind >>= f).Reports words post follow := by
  intro tokens rest htokens hrest
  have hkind := hne _ hrest
  rw [← nextKind_append htokens rest] at hkind
  exact step false (accept_of_ne hkind) (h tokens rest htokens hrest)

/-- A token that is wanted is the first of the words, and what is read behind it may depend on it.
-/
theorem expect {kind : Kind} {what : Wanted} {f : Token → Parser α} (hw : w.kind = kind)
    (h : ∀ t : Token, t.word = w → (f t).Reports words post follow) :
    (Parser.expect kind what >>= f).Reports (w :: words) post follow := by
  intro tokens rest htokens hrest
  obtain ⟨t, ts, rfl, ht, hts⟩ := cons_of_map_word htokens
  refine step t ?_ (h t ht ts rest hts hrest)
  have hkind : t.kind = kind := by rw [← hw, ← ht]; rfl
  simp [Parser.expect, hkind]

/-- Nothing may depend on the place. -/
theorem here {f : Option Position → Parser α} (h : ∀ pos, (f pos).Reports words post follow) :
    (Parser.here >>= f).Reports words post follow := by
  intro tokens rest htokens hrest
  exact step _ rfl (h _ tokens rest htokens hrest)

/-- A reference adds its name to those that are reported. -/
theorem refer {reference : Reference} {f : Unit → Parser α}
    (h : (f ()).Reports words (fun a names => post a (reference.name :: names)) follow) :
    (Parser.refer reference >>= f).Reports words post follow := by
  intro tokens rest htokens hrest
  obtain ⟨value, references, heq, hvalue⟩ := h tokens rest htokens hrest
  refine ⟨value, reference :: references, ?_, hvalue⟩
  change (Parser.refer reference >>= f).run _ = _
  rw [run_bind, run, Parser.refer]
  simp only [run, heq]
  rfl

/-- Semicolons are skipped where there are none. -/
theorem skipSemicolons {f : Unit → Parser α}
    (hne : ∀ next, follow next → leading words next ≠ some .semicolon)
    (h : (f ()).Reports words post follow) :
    (Parser.skipSemicolons >>= f).Reports words post follow := by
  intro tokens rest htokens hrest
  refine step () (skipSemicolons_of_ne ?_) (h tokens rest htokens hrest)
  rw [nextKind_append htokens rest]
  exact hne _ hrest

/-- The budget of a bounded parser exceeds the number of words it reads. -/
theorem bounded {p : Nat → Parser α}
    (h : ∀ n, words.length < n → (p n).Reports words post follow) :
    (Parser.bounded p).Reports words post follow := by
  intro tokens rest htokens hrest
  have hlength : words.length = tokens.length := by simp [← htokens]
  refine h _ ?_ tokens rest htokens hrest
  rw [List.length_append]
  omega

end Reports

/-! ### Reading alone -/

namespace Reads

theorem imp {p : Parser α} {post' : α → Prop} {follow' : Option Kind → Prop}
    (h : p.Reads words post follow) (hpost : ∀ a, post a → post' a)
    (hfollow : ∀ next, follow' next → follow next) : p.Reads words post' follow' :=
  Reports.imp h (fun a _ => hpost a) hfollow

theorem pure {a : α} (h : post a) : (Pure.pure a : Parser α).Reads [] post follow :=
  Reports.pure h

/-- What two parsers read one after the other. -/
theorem bind {p : Parser α} {f : α → Parser β} {post' : β → Prop}
    {before : Option Kind → Prop} (hp : p.Reads words post before)
    (hnext : ∀ next, follow next → before (leading more next))
    (hf : ∀ a, post a → (f a).Reads more post' follow) :
    (p >>= f).Reads (words ++ more) post' follow :=
  Reports.bind hp hnext fun a _ => hf a

/-- What a parser reads that makes something of the value of another one. -/
theorem map {p : Parser α} {f : α → Parser β} {post' : β → Prop} (hp : p.Reads words post follow)
    (hf : ∀ a, post a → (f a).Reads [] post' follow) : (p >>= f).Reads words post' follow :=
  Reports.map hp fun a _ => hf a

/-- What is read behind a parser that reads nothing. -/
theorem before {p : Parser β} {f : β → Parser α} {post' : β → Prop}
    (hp : p.Reads [] post' fun _ => True) (hf : ∀ b, post' b → (f b).Reads words post follow) :
    (p >>= f).Reads words post follow :=
  Reports.before hp fun b _ => hf b

theorem pure_bind {b : β} {f : β → Parser α} (h : (f b).Reads words post follow) :
    ((Pure.pure b : Parser β) >>= f).Reads words post follow :=
  Reports.pure_bind h

theorem skip {f : Unit → Parser α} (h : (f ()).Reads words post follow) :
    (Parser.skip >>= f).Reads (w :: words) post follow :=
  Reports.skip h

theorem peek {f : Option Kind → Parser α}
    (h : ∀ next, follow next → (f (leading words next)).Reads words post follow) :
    (Parser.peek 0 >>= f).Reads words post follow :=
  Reports.peek h

/-- Looking past the next token. -/
theorem peek_one {f : Option Kind → Parser α}
    (h : ∀ next, follow next → (f (leading words next)).Reads (w :: words) post follow) :
    (Parser.peek 1 >>= f).Reads (w :: words) post follow :=
  Reports.peek_one h

theorem at_eq {kind : Kind} {f : Bool → Parser α}
    (heq : ∀ next, follow next → leading words next = some kind)
    (h : (f true).Reads words post follow) : (Parser.at? kind >>= f).Reads words post follow :=
  Reports.at_eq heq h

theorem at_ne {kind : Kind} {f : Bool → Parser α}
    (hne : ∀ next, follow next → leading words next ≠ some kind)
    (h : (f false).Reads words post follow) : (Parser.at? kind >>= f).Reads words post follow :=
  Reports.at_ne hne h

/-- A token of the kind that is asked for is read. -/
theorem accept_eq {kind : Kind} {f : Bool → Parser α} (hw : w.kind = kind)
    (h : (f true).Reads words post follow) :
    (Parser.accept kind >>= f).Reads (w :: words) post follow :=
  Reports.accept_eq hw h

/-- A token of another kind is left. -/
theorem accept_ne {kind : Kind} {f : Bool → Parser α}
    (hne : ∀ next, follow next → leading words next ≠ some kind)
    (h : (f false).Reads words post follow) : (Parser.accept kind >>= f).Reads words post follow :=
  Reports.accept_ne hne h

theorem expect {kind : Kind} {what : Wanted} {f : Token → Parser α} (hw : w.kind = kind)
    (h : ∀ t : Token, t.word = w → (f t).Reads words post follow) :
    (Parser.expect kind what >>= f).Reads (w :: words) post follow :=
  Reports.expect hw h

theorem here {f : Option Position → Parser α} (h : ∀ pos, (f pos).Reads words post follow) :
    (Parser.here >>= f).Reads words post follow :=
  Reports.here h

/-- Semicolons are skipped where there are none. -/
theorem skipSemicolons {f : Unit → Parser α}
    (hne : ∀ next, follow next → leading words next ≠ some .semicolon)
    (h : (f ()).Reads words post follow) :
    (Parser.skipSemicolons >>= f).Reads words post follow :=
  Reports.skipSemicolons hne h

/-- The budget of a bounded parser exceeds the number of words it reads. -/
theorem bounded {p : Nat → Parser α}
    (h : ∀ n, words.length < n → (p n).Reads words post follow) :
    (Parser.bounded p).Reads words post follow :=
  Reports.bounded h

end Reads

end Parser

/-! ### Array lengths

What is read of an array length depends on the tokens up to its bracket, and the bracket is found by
`lengthTokens`. -/

/-- An array length is the text of what is found in front of its bracket, unless that is no length. -/
theorem arrayLength_of_found {tokens inside rest : List Token}
    (h : lengthTokens 0 tokens = some (inside, rest)) : arrayLength tokens =
      if String.join (inside.map Token.text) = "" ∨ String.join (inside.map Token.text) = "..." then
        Parser.wanted .arrayLength rest
      else .ok ⟨String.join (inside.map Token.text), [], rest⟩ := by
  rw [arrayLength, h]

/-- An array length that is read was found in front of its bracket, and nothing is reported of it. -/
theorem lengthTokens_of_arrayLength {tokens : List Token} {parsed : Parsed String}
    (h : arrayLength tokens = .ok parsed) :
    ∃ inside, lengthTokens 0 tokens = some (inside, parsed.rest) ∧ parsed.references = [] := by
  cases hfound : lengthTokens 0 tokens with
  | none =>
    rw [arrayLength, hfound] at h
    cases h
  | some found =>
    rw [arrayLength_of_found hfound] at h
    split at h <;> cases h
    exact ⟨found.1, rfl, rfl⟩

end Multicast.Syntax
