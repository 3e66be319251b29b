import Multicast.Proofs.Grammar
import Multicast.Proofs.ReadBack
import Multicast.Proofs.Rounds

/-!
# What comes of reading written types

The verdict on a written type says what comes of reading it (`meets_typeExpr`): it is read, or it is
found that it cannot be described, or it is refused.

## Three verdicts, and what they say of a parser

A verdict is one of three things, and for a reader it means: it reads all the words and leaves what
follows; it fails for something that cannot be described, behind some of the words; or it fails for good.
The rules here compose verdicts as parsers are composed. Where the first parser reads, the verdict is that
of the second one; where it does not, the second one is never asked.

What is skipped is told by the words: they nest, and so both counts come to their end where the words do,
that of the delimiters of a declaration and that of the brackets in a length.
-/

namespace Multicast.Syntax

open Source Multicast.Syntax.Parser

/-! ### Skipping and measuring nested tokens -/

theorem closer?_eq_some {k closing : Kind} (h : closer? k = some closing) :
    k = .leftParen ∧ closing = .rightParen ∨ k = .leftBracket ∧ closing = .rightBracket ∨
      k = .leftBrace ∧ closing = .rightBrace := by
  cases k <;> simp_all [closer?]

/-- A token opens something that is due from then on, or it closes what is due, or it does neither. -/
theorem dueBehind_eq_some {k : Kind} {due due' : List Kind} (h : dueBehind due k = some due') :
    (∃ closing, closer? k = some closing ∧ due' = closing :: due) ∨
      (k.isClosing = true ∧ due = k :: due') ∨
      (k.isOpening = false ∧ k.isClosing = false ∧ due' = due ∧ ¬(k = .semicolon ∧ due = [])) := by
  unfold dueBehind at h
  cases hcloser : closer? k with
  | some closing =>
    rw [hcloser] at h
    exact .inl ⟨closing, rfl, (Option.some.inj h).symm⟩
  | none =>
    rw [hcloser] at h
    dsimp only at h
    split at h
    next hcloses =>
      split at h
      next hhead =>
        cases h
        obtain ⟨tail, rfl⟩ := List.head?_eq_some_iff.1 hhead
        exact .inr (.inl ⟨hcloses, rfl⟩)
      next => cases h
    next hcloses =>
      have hopens : k.isOpening = false := by
        cases k <;> simp_all [closer?, Kind.isOpening]
      split at h
      next => cases h
      next hends =>
        exact .inr (.inr ⟨hopens, by simpa using hcloses, (Option.some.inj h).symm, hends⟩)

/-- Each delimiter that is due is one that has been opened. -/
theorem nest_of_foldlM {kinds due due' : List Kind} (h : kinds.foldlM dueBehind due = some due') :
    nest due.length kinds = some due'.length := by
  induction kinds generalizing due with
  | nil =>
    cases h
    rfl
  | cons k kinds ih =>
    rw [List.foldlM_cons] at h
    obtain ⟨between, hstep, hrest⟩ := Option.bind_eq_some_iff.1 h
    rw [← ih hrest]
    rcases dueBehind_eq_some hstep with ⟨closing, hcloser, rfl⟩ | ⟨hcloses, rfl⟩ |
      ⟨hopens, hcloses, rfl, hends⟩
    · rcases closer?_eq_some hcloser with ⟨rfl, rfl⟩ | ⟨rfl, rfl⟩ | ⟨rfl, rfl⟩ <;>
        cases due <;> rfl
    · have hopens : k.isOpening = false := by
        revert hcloses
        cases k <;> simp [Kind.isOpening, Kind.isClosing]
      simp [nest, hopens, hcloses]
    · cases between with
      | nil => simp_all [nest]
      | cons => simp [nest, hopens, hcloses]

/-- A nested declaration is skipped as a whole. -/
theorem Nested.nest_zero {kinds : List Kind} (h : Nested kinds) : nest 0 kinds = some 0 :=
  nest_of_foldlM (h [])

/-- How many of the delimiters that are due count for the length of an array. -/
def depthOf (due : List Kind) : Nat :=
  due.countP fun k => k = .rightBracket ∨ k = .rightParen

/-- Tokens with nested delimiters belong to the length of an array. -/
theorem lengthTokens_of_foldlM {tokens : List Token} {due due' : List Kind}
    (h : (tokens.map Token.kind).foldlM dueBehind due = some due') (rest : List Token) :
    lengthTokens (depthOf due) (tokens ++ rest) =
      (lengthTokens (depthOf due') rest).map fun found => (tokens ++ found.1, found.2) := by
  induction tokens generalizing due with
  | nil =>
    cases h
    simp
  | cons t tokens ih =>
    rw [List.map_cons, List.foldlM_cons] at h
    obtain ⟨between, hstep, hrest⟩ := Option.bind_eq_some_iff.1 h
    have hcons (n : Nat) (hn : depthOf between = n) :
        (lengthTokens n (tokens ++ rest)).map (fun found => (t :: found.1, found.2)) =
          (lengthTokens (depthOf due') rest).map fun found => (t :: tokens ++ found.1, found.2) := by
      rw [← hn, ih hrest, Option.map_map]
      rfl
    rw [List.cons_append, lengthTokens]
    rcases dueBehind_eq_some hstep with ⟨closing, hcloser, rfl⟩ | ⟨hcloses, rfl⟩ |
      ⟨hopens, hcloses, rfl, -⟩
    · rcases closer?_eq_some hcloser with ⟨hkind, rfl⟩ | ⟨hkind, rfl⟩ | ⟨hkind, rfl⟩ <;>
        rw [if_neg (by simp [hkind]), hkind] <;> exact hcons _ (by simp [depthOf])
    · have hne : ¬(t.kind = .rightBracket ∧ depthOf (t.kind :: between) = 0) := by
        rintro ⟨hkind, hzero⟩
        simp [depthOf, hkind] at hzero
      rw [if_neg hne]
      refine hcons _ ?_
      cases hkind : t.kind <;> simp_all [depthOf, Kind.isClosing]
    · have hne : ¬(t.kind = .rightBracket ∧ depthOf between = 0) := by
        rintro ⟨hkind, -⟩
        rw [hkind] at hcloses
        cases hcloses
      rw [if_neg hne]
      refine hcons _ ?_
      cases hkind : t.kind <;> simp_all [Kind.isClosing, Kind.isOpening]

/-- **Nested tokens are a length** in front of a bracket. -/
theorem lengthTokens_of_nested {tokens : List Token} (h : Nested (tokens.map Token.kind)) {t : Token}
    (ht : t.kind = .rightBracket) (rest : List Token) :
    lengthTokens 0 (tokens ++ t :: rest) = some (tokens, rest) := by
  have hlength := lengthTokens_of_foldlM (h []) (t :: rest)
  have hend : lengthTokens 0 (t :: rest) = some ([], rest) := by
    rw [lengthTokens, if_pos ⟨ht, rfl⟩]
  rw [show depthOf [] = 0 from rfl, hend] at hlength
  simpa using hlength

/-! ### Meeting a verdict -/

/-- What a verdict says of a result that leaves `rest`. -/
def Verdict.Describes {α : Type} (v : Verdict) (post : α → Prop) (rest : List Token)
    (result : Except Failure (Parsed α)) : Prop :=
  match v with
  | .plain => ∃ value references, result = .ok ⟨value, references, rest⟩ ∧ post value
  | .seen => ∃ e, result = .error e ∧ e.cause.isUnsupported = true
  | .missed => ∃ e, result = .error e ∧ e.cause.isUnsupported = false

namespace Parser

variable {α β : Type} {v v' : Verdict} {words more : List Word} {w : Word}
  {follow follow' : Option Kind → Prop} {post : α → Prop} {post' : β → Prop}

/-- **A parser meets a verdict** on words that stand in front of a token of an admitted kind. -/
def Meets (p : Parser α) (v : Verdict) (words : List Word) (post : α → Prop)
    (follow : Option Kind → Prop) : Prop :=
  ∀ tokens rest, tokens.map Token.word = words → follow (nextKind rest) →
    v.Describes post rest (p (tokens ++ rest))

namespace Meets

theorem of_reads {p : Parser α} (h : p.Reads words post follow) : p.Meets .plain words post follow := h

theorem imp {p : Parser α} {post' : α → Prop} (h : p.Meets v words post follow)
    (hpost : ∀ a, post a → post' a) (hfollow : ∀ next, follow' next → follow next) :
    p.Meets v words post' follow' := by
  intro tokens rest htokens hrest
  have hall := h tokens rest htokens (hfollow _ hrest)
  cases v with
  | plain =>
    obtain ⟨value, references, heq, hvalue⟩ := hall
    exact ⟨value, references, heq, hpost _ hvalue⟩
  | seen => exact hall
  | missed => exact hall

theorem pure {a : α} (h : post a) : (Pure.pure a : Parser α).Meets .plain [] post follow :=
  Reads.pure h

/-- What fails is not read on. -/
theorem of_fails {p : Parser β} {f : β → Parser α} (hv : v ≠ .plain)
    (hp : p.Meets v words (fun _ => True) follow) : (p >>= f).Meets v words post follow := by
  intro tokens rest htokens hrest
  have hall := hp tokens rest htokens hrest
  cases v with
  | plain => exact absurd rfl hv
  | seen | missed =>
    obtain ⟨e, herror, hcause⟩ := hall
    exact ⟨e, bind_eq_error.2 (.inl herror), hcause⟩

/-- Two parsers one after the other: the first that fails decides. -/
theorem bind {p : Parser β} {f : β → Parser α} (hp : p.Meets v words post' follow')
    (hnext : ∀ next, follow next → follow' (leading more next))
    (hf : ∀ b, post' b → (f b).Meets v' more post follow) :
    (p >>= f).Meets (v.andThen v') (words ++ more) post follow := by
  intro tokens rest htokens hrest
  obtain ⟨ts, us, rfl, hts, hus⟩ := List.map_eq_append_iff.1 htokens
  have hbefore : follow' (nextKind (us ++ rest)) := by
    rw [nextKind_append hus]
    exact hnext _ hrest
  have hfirst := hp ts (us ++ rest) hts hbefore
  rw [List.append_assoc]
  cases v with
  | plain =>
    obtain ⟨b, references, hb, hpost⟩ := hfirst
    have hsecond := hf b hpost us rest hus hrest
    cases v' with
    | plain =>
      obtain ⟨a, references', ha, hvalue⟩ := hsecond
      exact ⟨a, references ++ references', bind_eq_ok.2 ⟨_, _, hb, ha, rfl⟩, hvalue⟩
    | seen | missed =>
      obtain ⟨e, herror, hcause⟩ := hsecond
      exact ⟨e, bind_eq_error.2 (.inr ⟨_, hb, herror⟩), hcause⟩
  | seen | missed =>
    obtain ⟨e, herror, hcause⟩ := hfirst
    exact ⟨e, bind_eq_error.2 (.inl herror), hcause⟩

/-- What is made of the value of a parser. -/
theorem map {p : Parser β} {f : β → Parser α} (hp : p.Meets v words post' follow)
    (hf : ∀ b, post' b → (f b).Meets .plain [] post follow) :
    (p >>= f).Meets v words post follow := by
  have h : (p >>= f).Meets (v.andThen .plain) (words ++ []) post follow := hp.bind (fun _ h => h) hf
  rwa [Verdict.andThen_plain, List.append_nil] at h

/-- What is read behind a parser that reads nothing. -/
theorem before {p : Parser β} {f : β → Parser α} (hp : p.Reads [] post' fun _ => True)
    (hf : ∀ b, post' b → (f b).Meets v words post follow) : (p >>= f).Meets v words post follow :=
  (of_reads hp).bind (fun _ _ => trivial) hf

theorem pure_bind {b : β} {f : β → Parser α} (h : (f b).Meets v words post follow) :
    ((Pure.pure b : Parser β) >>= f).Meets v words post follow := by
  rwa [LawfulMonad.pure_bind]

/-- A parser that does as another one does on what is left of the words. -/
theorem step {p : Parser α} (h : ∀ tokens rest, tokens.map Token.word = words → follow (nextKind rest) →
      ∃ (p' : Parser α) (tokens' : List Token) (words' : List Word),
        p (tokens ++ rest) = p' (tokens' ++ rest) ∧ tokens'.map Token.word = words' ∧
          p'.Meets v words' post follow) : p.Meets v words post follow := by
  intro tokens rest htokens hrest
  obtain ⟨p', tokens', words', heq, htokens', hp'⟩ := h tokens rest htokens hrest
  rw [heq]
  exact hp' tokens' rest htokens' hrest

theorem skip {f : Unit → Parser α} (h : (f ()).Meets v words post follow) :
    (Parser.skip >>= f).Meets v (w :: words) post follow := by
  refine step fun tokens rest htokens _ => ?_
  obtain ⟨t, ts, rfl, -, hts⟩ := cons_of_map_word htokens
  exact ⟨f (), ts, _, bind_of_ok rfl, hts, h⟩

theorem peek {f : Option Kind → Parser α}
    (h : ∀ next, follow next → (f (leading words next)).Meets v words post follow) :
    (Parser.peek 0 >>= f).Meets v words post follow := by
  refine step fun tokens rest htokens hrest => ⟨_, tokens, _, bind_of_ok ?_, htokens, h _ hrest⟩
  rw [Parser.peek, ← nextKind_append htokens rest, nextKind, List.head?_eq_getElem?]

/-- Looking past the next token. -/
theorem peek_one {f : Option Kind → Parser α}
    (h : ∀ next, follow next → (f (leading words next)).Meets v (w :: words) post follow) :
    (Parser.peek 1 >>= f).Meets v (w :: words) post follow := by
  refine step fun tokens rest htokens hrest => ?_
  obtain ⟨t, ts, rfl, -, hts⟩ := cons_of_map_word htokens
  refine ⟨_, t :: ts, _, bind_of_ok ?_, htokens, h _ hrest⟩
  rw [Parser.peek, ← nextKind_append hts rest, nextKind, List.head?_eq_getElem?]
  rfl

/-- Asking for a kind whose answer is known. -/
theorem at? {kind : Kind} {f : Bool → Parser α} {b : Bool}
    (hb : ∀ next, follow next → (leading words next == some kind) = b)
    (h : (f b).Meets v words post follow) : (Parser.at? kind >>= f).Meets v words post follow := by
  refine step fun tokens rest htokens hrest => ⟨f b, tokens, _, bind_of_ok ?_, htokens, h⟩
  rw [← hb _ hrest, ← nextKind_append htokens rest, nextKind, List.head?_eq_getElem?]
  rfl

/-- A token of the kind that is asked for is read. -/
theorem accept_eq {kind : Kind} {f : Bool → Parser α} (hw : w.kind = kind)
    (h : (f true).Meets v words post follow) :
    (Parser.accept kind >>= f).Meets v (w :: words) post follow := by
  refine step fun tokens rest htokens _ => ?_
  obtain ⟨t, ts, rfl, ht, hts⟩ := cons_of_map_word htokens
  have hkind : t.kind = kind := by rw [← hw, ← ht]; rfl
  exact ⟨f true, ts, _, bind_of_ok (accept_of_eq hkind _), hts, h⟩

/-- A token of another kind is left. -/
theorem accept_ne {kind : Kind} {f : Bool → Parser α}
    (hne : ∀ next, follow next → leading words next ≠ some kind)
    (h : (f false).Meets v words post follow) :
    (Parser.accept kind >>= f).Meets v words post follow := by
  refine step fun tokens rest htokens hrest => ⟨f false, tokens, _, bind_of_ok ?_, htokens, h⟩
  refine accept_of_ne ?_
  rw [nextKind_append htokens rest]
  exact hne _ hrest

theorem expect {kind : Kind} {what : Wanted} {f : Token → Parser α} (hw : w.kind = kind)
    (h : ∀ t : Token, t.word = w → (f t).Meets v words post follow) :
    (Parser.expect kind what >>= f).Meets v (w :: words) post follow := by
  refine step fun tokens rest htokens _ => ?_
  obtain ⟨t, ts, rfl, ht, hts⟩ := cons_of_map_word htokens
  have hkind : t.kind = kind := by rw [← hw, ← ht]; rfl
  refine ⟨f t, ts, _, bind_of_ok ?_, hts, h t ht⟩
  simp [Parser.expect, hkind]

theorem here {f : Option Position → Parser α} (h : ∀ pos, (f pos).Meets v words post follow) :
    (Parser.here >>= f).Meets v words post follow :=
  step fun tokens _ htokens _ => ⟨_, tokens, _, bind_of_ok rfl, htokens, h _⟩

/-- A semicolon more is skipped as well. -/
theorem semicolon {f : Unit → Parser α} (hw : w.kind = .semicolon)
    (h : (Parser.skipSemicolons >>= f).Meets v words post follow) :
    (Parser.skipSemicolons >>= f).Meets v (w :: words) post follow := by
  refine step fun tokens rest htokens _ => ?_
  obtain ⟨t, ts, rfl, ht, hts⟩ := cons_of_map_word htokens
  have hkind : t.kind = .semicolon := by rw [← hw, ← ht]; rfl
  exact ⟨_, ts, _, bind_congr_first (skipSemicolons_cons hkind _), hts, h⟩

/-- Semicolons are skipped where there are none. -/
theorem skipSemicolons {f : Unit → Parser α}
    (hne : ∀ next, follow next → leading words next ≠ some .semicolon)
    (h : (f ()).Meets v words post follow) :
    (Parser.skipSemicolons >>= f).Meets v words post follow := by
  refine step fun tokens rest htokens hrest =>
    ⟨f (), tokens, _, bind_of_ok (skipSemicolons_of_ne ?_), htokens, h⟩
  rw [nextKind_append htokens rest]
  exact hne _ hrest

/-- The budget of a bounded parser exceeds the number of words. -/
theorem bounded {p : Nat → Parser α} (h : ∀ n, words.length < n → (p n).Meets v words post follow) :
    (Parser.bounded p).Meets v words post follow := by
  intro tokens rest htokens hrest
  have hlength : words.length = tokens.length := by simp [← htokens]
  refine h _ ?_ tokens rest htokens hrest
  rw [List.length_append]
  omega

end Meets

end Parser

end Multicast.Syntax
