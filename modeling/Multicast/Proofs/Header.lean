import Multicast.Proofs.Reads
import Multicast.Syntax.File

/-!
# Headers and what follows them

A header is a package clause with imports behind it, and nothing else. A text below a header is read
after it, and the header is read as it is read alone. This is not quite obvious: the end of a text
may stand for a semicolon, and a parser that meets the end may stop where it would go on reading.
What saves it is that every word a header can end in ends a statement, so that its tokens are
`Finished`: the semicolon is among them.

`p.Extends more before behind` says that what `p` reads from finished tokens it reads as well if
`more` follows. The two flags tell whether there has to be a token left before, and whether there
will be one left behind; a word that ends a statement leaves one.

## Two things that could go wrong below a header

A parser that reads to the end of the tokens may look behind it. It finds nothing there when the header
stands alone, and the first token of a declaration when it does not; where it wants a semicolon, this
would make a difference. Since the tokens are finished, the semicolon is read before the end is met. And
the budgets of the loops are told from the number of tokens, so that they are larger with more behind the
header; a larger budget reads no less (`Within`).
-/

namespace Multicast.Syntax

open Source

/-- Reads the package clause and the imports of a file. -/
def header : Parser (String × List Import) := do
  let package ← packageClause
  let imports ← Parser.bounded imports
  return (package, imports)

/-- The last token does not leave the end of a line to end a statement. -/
def Finished (tokens : List Token) : Prop :=
  ∀ t ∈ tokens.getLast?, t.endsStatement = false

/-- The end of finished tokens is finished. -/
theorem Finished.of_suffix {tokens rest : List Token} (h : Finished tokens)
    (hrest : rest <:+ tokens) : Finished rest := by
  obtain ⟨us, rfl⟩ := hrest
  intro t ht
  refine h t ?_
  rw [List.getLast?_append, Option.mem_def.1 ht]
  rfl

/-- A token that ends a statement is not the last one. -/
theorem Finished.ne_nil {t : Token} {rest : List Token} (h : Finished (t :: rest))
    (ht : t.kind.endsStatement = true) : rest ≠ [] := by
  rintro rfl
  have hnot := h t rfl
  rw [Token.endsStatement, ht] at hnot
  cases hnot

/-- Where a line is to be ended there is a word to be read. -/
theorem wordsOf_closing_ne_nil (ps : List Piece) :
    wordsOf true ps ++ closing (endsAfter true ps) ≠ [] := by
  induction ps with
  | nil => simp [wordsOf, endsAfter, closing]
  | cons p ps ih =>
    cases p with
    | newline => simp [wordsOf, closing]
    | blockComment t =>
      rw [wordsOf, endsAfter]
      cases t.contains '\n' with
      | true => simp [closing]
      | false => simpa [closing] using ih
    | lexeme kind t => simp [wordsOf]
    | blank c | lineComment t | broken cause t => exact ih

/-- The last word of a text leaves nothing to end. -/
theorem getLast?_wordsOf (ends : Bool) (ps : List Piece) :
    ∀ w ∈ (wordsOf ends ps ++ closing (endsAfter ends ps)).getLast?, w.endsStatement = false := by
  have hlineEnd : Word.lineEnd.endsStatement = false := by decide
  -- the line end that an open line is given leaves nothing to end itself
  have hclosing (b : Bool) (ws : List Word) (h : ∀ w ∈ ws.getLast?, w.endsStatement = false) :
      ∀ w ∈ (closing b ++ ws).getLast?, w.endsStatement = false := by
    intro w hw
    rw [List.getLast?_append] at hw
    cases hlast : ws.getLast? with
    | some v =>
      rw [hlast] at hw
      obtain rfl : v = w := by simpa using hw
      exact h v hlast
    | none =>
      rw [hlast] at hw
      cases b with
      | false => cases hw
      | true =>
        obtain rfl : Word.lineEnd = w := by simpa [closing] using hw
        exact hlineEnd
  induction ps generalizing ends with
  | nil =>
    intro w hw
    exact hclosing ends [] (by simp) w (by simpa [wordsOf, endsAfter] using hw)
  | cons p ps ih =>
    cases p with
    | newline =>
      rw [wordsOf, endsAfter, List.append_assoc]
      exact hclosing _ _ (ih false)
    | blockComment t =>
      rw [wordsOf, endsAfter, List.append_assoc]
      exact hclosing _ _ (ih _)
    -- behind a lexeme that ends a statement there is always something, if only that line end
    | lexeme kind t =>
      intro w hw
      rw [wordsOf, endsAfter, List.cons_append] at hw
      cases hends : Word.endsStatement ⟨kind, String.ofList t⟩ with
      | true =>
        rw [hends, List.getLast?_cons_of_ne_nil (wordsOf_closing_ne_nil ps)] at hw
        exact ih true w hw
      | false =>
        rw [hends, List.getLast?_cons] at hw
        cases hlast : (wordsOf false ps ++ closing (endsAfter false ps)).getLast? with
        | some v =>
          rw [hlast] at hw
          obtain rfl : v = w := by simpa using hw
          exact ih false v hlast
        | none =>
          rw [hlast] at hw
          obtain rfl : _ = w := by simpa using hw
          exact hends
    | blank c | lineComment t | broken cause t => exact ih ends

/-- The tokens of a text are finished. -/
theorem finished_of_tokenize {text : String} {ts : Tokens} (h : tokenize text = .ok ts) :
    Finished ts.list := by
  obtain ⟨ps, -, -, rfl⟩ := tokenize_eq_ok_iff.1 h
  intro t ht
  rw [← endsStatement_word]
  refine getLast?_wordsOf false ps t.word ?_
  have hwords : wordsOf false ps ++ closing (endsAfter false ps) = List.map Token.word
      (tokensOf .start false ps ++
        if endsAfter false ps then [.lineEnd (Position.start.past (textOf ps))] else []) := by
    rw [List.map_append, word_tokensOf, closing]
    split <;> rfl
  rw [hwords, List.getLast?_map, Option.mem_def.1 ht]
  rfl

/-! ### Reading on

Which of the flags a parser has is told by its last token. The rule for one parser behind another hands
the flag on. -/

namespace Parser

variable {α β : Type} {more : List Token} {a b c : Bool}

/-- **What is read from finished tokens is read as well if others follow.** With the first flag,
there has to be a token left before, and with the second, there is one left behind. -/
def Extends (more : List Token) (before behind : Bool) (p : Parser α) : Prop :=
  ∀ tokens parsed, Finished tokens → (before → tokens ≠ []) → p tokens = .ok parsed →
    parsed.rest <:+ tokens ∧ (behind → parsed.rest ≠ []) ∧
      p (tokens ++ more) = .ok { parsed with rest := parsed.rest ++ more }

namespace Extends

theorem pure (x : α) : Extends more a a (Pure.pure x : Parser α) := by
  rintro tokens _ - hne ⟨⟩
  exact ⟨List.suffix_refl _, hne, rfl⟩

/-- One parser behind another, where the first may leave a line end to the second. -/
theorem bind {p : Parser α} {f : α → Parser β} (hp : Extends more a b p)
    (hf : ∀ x, Extends more b c (f x)) : Extends more a c (p >>= f) := by
  intro tokens parsed hfinished hne h
  obtain ⟨first, second, hfirst, hsecond, rfl⟩ := bind_eq_ok.1 h
  obtain ⟨hsuffix, hbehind, hon⟩ := hp tokens first hfinished hne hfirst
  obtain ⟨hsuffix', hbehind', hon'⟩ :=
    hf first.value first.rest second (hfinished.of_suffix hsuffix) hbehind hsecond
  exact ⟨hsuffix'.trans hsuffix, hbehind', bind_eq_ok.2 ⟨_, _, hon, hon', rfl⟩⟩

/-- A parser that fails extends to anything. -/
theorem fail {p : Parser α} (h : ∀ tokens, ∃ e, p tokens = .error e) : Extends more a b p := by
  intro tokens parsed _ _ hok
  obtain ⟨e, he⟩ := h tokens
  rw [he] at hok
  cases hok

/-- A token is read, and it tells whether a line end may stand behind it. -/
theorem expect (kind : Kind) (what : Wanted) :
    Extends more a kind.endsStatement (Parser.expect kind what) := by
  intro tokens parsed hfinished _ h
  cases tokens with
  | nil => cases h
  | cons t rest =>
    rw [Parser.expect] at h
    split at h
    next hkind =>
      cases h
      refine ⟨List.suffix_cons t rest, fun hends => hfinished.ne_nil (hkind ▸ hends), ?_⟩
      change Parser.expect kind what (t :: (rest ++ more)) = _
      rw [Parser.expect, if_pos hkind]
    next => cases h

/-- Asking for a kind that does not follow. -/
theorem accept {kind : Kind} {f : Bool → Parser α} (hkind : nextKind more ≠ some kind)
    (hyes : Extends more kind.endsStatement b (f true)) (hno : Extends more a b (f false)) :
    Extends more a b (Parser.accept kind >>= f) := by
  intro tokens parsed hfinished hne h
  have hother (ts : List Token) (hts : nextKind ts ≠ some kind)
      (hmore : nextKind (ts ++ more) ≠ some kind) :
      (Parser.accept kind >>= f) ts = f false ts ∧
        (Parser.accept kind >>= f) (ts ++ more) = f false (ts ++ more) :=
    ⟨bind_of_ok (accept_of_ne hts), bind_of_ok (accept_of_ne hmore)⟩
  cases tokens with
  | nil =>
    obtain ⟨hshort, hlong⟩ := hother [] (by simp [nextKind]) (by simpa using hkind)
    rw [hshort] at h
    rw [hlong]
    exact hno [] parsed hfinished hne h
  | cons t rest =>
    by_cases ht : t.kind = kind
    · rw [bind_of_ok (accept_of_eq ht rest)] at h
      obtain ⟨hsuffix, hbehind, hon⟩ := hyes rest parsed
        (hfinished.of_suffix (List.suffix_cons t rest))
        (fun hends => hfinished.ne_nil (ht ▸ hends)) h
      refine ⟨hsuffix.trans (List.suffix_cons t rest), hbehind, ?_⟩
      rw [List.cons_append, bind_of_ok (accept_of_eq ht _), hon]
    · obtain ⟨hshort, hlong⟩ := hother (t :: rest) (by simpa [nextKind] using ht)
        (by simpa [nextKind] using ht)
      rw [hshort] at h
      rw [hlong]
      exact hno (t :: rest) parsed hfinished hne h

/-- Semicolons are passed, and none is left to what follows. -/
theorem skipSemicolons (hkind : nextKind more ≠ some .semicolon) :
    Extends more a false Parser.skipSemicolons := by
  rintro tokens _ - - ⟨⟩
  refine ⟨List.dropWhile_suffix _, fun h => by simp at h, ?_⟩
  have hmore : more.dropWhile (·.kind = .semicolon) = more := by
    cases more with
    | nil => rfl
    | cons t more =>
      have ht : t.kind ≠ .semicolon := by simpa [nextKind] using hkind
      simp [ht]
  have hspan : (tokens ++ more).dropWhile (·.kind = .semicolon) =
      tokens.dropWhile (·.kind = .semicolon) ++ more := by
    rw [List.dropWhile_append]
    split
    next h => simp [List.isEmpty_iff.1 h, hmore]
    next => rfl
  rw [Parser.skipSemicolons, hspan]

/-- What is read unless the tokens end. -/
theorem unless_end {p q : Parser α} (hp : ∀ tokens, ∃ e, p tokens = .error e)
    (hq : Extends more a b q) :
    Extends more a b (peek 0 >>= fun next => if next.isNone then p else q) := by
  intro tokens parsed hfinished hne h
  cases tokens with
  | nil =>
    obtain ⟨e, he⟩ := hp []
    rw [bind_of_ok (show peek 0 [] = .ok ⟨none, [], []⟩ from rfl)] at h
    exact absurd (he.symm.trans h) (by simp)
  | cons t rest =>
    have hpeek (ts : List Token) : peek 0 (t :: ts) = .ok ⟨some t.kind, [], t :: ts⟩ := rfl
    rw [bind_of_ok (hpeek rest)] at h
    rw [List.cons_append, bind_of_ok (hpeek _)]
    exact hq (t :: rest) parsed hfinished hne h

end Extends

/-- What one parser reads, another one reads as well. -/
def Within (p q : Parser α) : Prop :=
  ∀ tokens parsed, p tokens = .ok parsed → q tokens = .ok parsed

namespace Within

theorem refl (p : Parser α) : p.Within p := fun _ _ h => h

/-- What reads no more than a second parser reads no more than a third one that reads no less than
that. -/
theorem trans {p q r : Parser α} (hpq : p.Within q) (hqr : q.Within r) : p.Within r :=
  fun tokens parsed h => hqr tokens parsed (hpq tokens parsed h)

/-- A parser that never reads reads no more than any other. -/
theorem fail {p q : Parser α} (h : ∀ tokens, ∃ e, p tokens = .error e) : p.Within q := by
  intro tokens parsed hok
  obtain ⟨e, he⟩ := h tokens
  rw [he] at hok
  cases hok

/-- What is read by two parsers in a row is read if each of them may read more. -/
theorem bind {p q : Parser α} {f g : α → Parser β} (hpq : p.Within q)
    (hfg : ∀ x, (f x).Within (g x)) : (p >>= f).Within (q >>= g) := by
  intro tokens parsed h
  obtain ⟨first, second, hfirst, hsecond, rfl⟩ := bind_eq_ok.1 h
  exact bind_eq_ok.2 ⟨_, _, hpq _ _ hfirst, hfg _ _ _ hsecond, rfl⟩

end Within

end Parser

/-! ### Reading on behind a header

Imports are read as long as their keyword comes. The first token of a declaration is another one, so the
loop ends there as it does at the end. -/

section

open Multicast.Syntax.Parser

/-- A group that is read on a budget is read on a larger one. -/
theorem groupRest_succ {α : Type} {spec : Parser α} (n : Nat) :
    (groupRest spec n).Within (groupRest spec (n + 1)) := by
  induction n with
  | zero => exact .fail fun _ => ⟨_, rfl⟩
  | succ n ih =>
    rw [groupRest, groupRest]
    refine .bind (.refl _) fun _ => .bind (.refl _) fun closed => ?_
    split
    next => exact .refl _
    next =>
      refine .bind (.refl _) fun next => ?_
      dsimp only
      split
      next => exact .fail fun _ => ⟨_, rfl⟩
      next => exact .bind (.refl _) fun _ => .bind ih fun _ => .refl _

/-- A larger budget for the specs of a group reads no less. -/
theorem groupRest_of_le {α : Type} {spec : Parser α} {n m : Nat} (hle : n ≤ m) :
    (groupRest spec n).Within (groupRest spec m) := by
  induction hle with
  | refl => exact .refl _
  | step _ ih => exact ih.trans (groupRest_succ _)

variable {more : List Token} {a b : Bool}

/-- The end of a spec takes the line end behind it. -/
theorem extends_specEnd (grouped : Bool) : Extends more true false (specEnd grouped) := by
  intro tokens parsed hfinished hne h
  obtain ⟨t, rest, rfl⟩ := List.exists_cons_of_ne_nil (hne rfl)
  have hpeek (ts : List Token) : peek 0 (t :: ts) = .ok ⟨some t.kind, [], t :: ts⟩ := rfl
  rw [specEnd, bind_of_ok (hpeek rest)] at h
  rw [List.cons_append, specEnd, bind_of_ok (hpeek (rest ++ more))]
  cases hkind : t.kind with
  | semicolon =>
    rw [hkind] at h
    cases h
    exact ⟨List.suffix_cons t rest, fun h => (by cases h), rfl⟩
  | rightParen =>
    rw [hkind] at h
    cases grouped with
    | true =>
      cases h
      exact ⟨List.suffix_refl _, fun h => (by cases h), rfl⟩
    | false => cases h
  | _ =>
    rw [hkind] at h
    cases h

variable (hmore : nextKind more = some (.keyword .typeKw))

include hmore

/-- An alias stands in front of a path, so no line ends behind it. -/
theorem extends_importAlias : Extends more a false importAlias := by
  rintro tokens parsed - - h
  cases tokens with
  | nil =>
    cases h
    refine ⟨List.suffix_refl _, fun h => (by cases h), ?_⟩
    obtain ⟨t, more, rfl, ht⟩ := exists_cons_of_nextKind hmore
    simp [importAlias, ht]
  | cons t rest =>
    rw [importAlias] at h
    rw [List.cons_append, importAlias]
    split at h <;> cases h
    next hkind =>
      rw [if_pos hkind]
      exact ⟨List.suffix_cons t rest, fun h => (by cases h), rfl⟩
    next hkind =>
      rw [if_neg hkind]
      exact ⟨List.suffix_refl _, fun h => (by cases h), rfl⟩

/-- An import is read to the end of its line. -/
theorem extends_importSpec (grouped : Bool) : Extends more a false (importSpec grouped) := by
  refine .bind (extends_importAlias hmore) fun written =>
    .bind (.expect .string .importPath) fun literal => ?_
  refine (?_ : Extends more true false (if importedPath literal.text = "" then _ else _))
  split
  · exact .bind (.fail fun _ => ⟨_, rfl⟩) fun _ => .bind (extends_specEnd grouped) fun _ => .pure _
  · exact .bind (extends_specEnd grouped) fun _ => .pure _

/-- A group of imports is read up to its parenthesis, behind which a line may end. -/
theorem extends_groupRest (n : Nat) : Extends more a true (groupRest (importSpec true) n) := by
  induction n generalizing a with
  | zero => exact .fail fun _ => ⟨_, rfl⟩
  | succ n ih =>
    refine .bind (.skipSemicolons (by rw [hmore]; simp)) fun _ => .accept (by rw [hmore]; simp)
      (.pure []) (.unless_end (fun _ => ⟨_, rfl⟩) ?_)
    exact .bind (extends_importSpec hmore true) fun _ => .bind ih fun _ => .pure _

/-- Imports are read in a group or alone. -/
theorem extends_group : Extends more a false (group importSpec) := by
  refine .accept (by rw [hmore]; simp) ?_ ?_
  · refine .bind (b := true) ?_ fun _ => .bind (extends_specEnd false) fun _ => .pure _
    intro tokens parsed hfinished hne h
    obtain ⟨hsuffix, hbehind, hon⟩ :=
      extends_groupRest hmore (tokens.length + 1) tokens parsed hfinished hne h
    exact ⟨hsuffix, hbehind, groupRest_of_le (by simp) _ _ hon⟩
  · exact .bind (extends_importSpec hmore false) fun _ => .pure _

/-- Imports that the text ends with. -/
theorem imports_append {n m : Nat} {tokens : List Token} {parsed : Parsed (List Import)}
    (hfinished : Finished tokens) (hn : tokens.length < n) (hm : tokens.length < m)
    (h : imports n tokens = .ok parsed) (hrest : parsed.rest = []) :
    imports m (tokens ++ more) = .ok { parsed with rest := more } := by
  induction n generalizing m tokens parsed with
  | zero => omega
  | succ n ih =>
    obtain _ | m := m
    · omega
    have hother {ts : List Token} {k : Nat} (hts : nextKind ts ≠ some (.keyword .importKw)) :
        imports (k + 1) ts = .ok ⟨[], [], ts⟩ := by
      rw [imports, bind_of_ok (accept_of_ne hts)]
      rfl
    cases tokens with
    | nil =>
      rw [hother (by simp [nextKind])] at h
      cases h
      exact hother (by simp [hmore])
    | cons t rest =>
      by_cases ht : t.kind = .keyword .importKw
      · rw [imports, bind_of_ok (accept_of_eq ht rest)] at h
        rw [List.cons_append, imports, bind_of_ok (accept_of_eq ht _)]
        obtain ⟨first, _, hfirst, hbehind, rfl⟩ := bind_eq_ok.1 h
        obtain ⟨others, hothers, rfl⟩ := bind_pure_eq_ok.1 hbehind
        obtain ⟨hsuffix, -, hon⟩ := extends_group hmore (a := false) rest first
          (hfinished.of_suffix (List.suffix_cons t rest)) (by simp) hfirst
        have hle := hsuffix.length_le
        rw [List.length_cons] at hn hm
        have hon' := ih (m := m) ((hfinished.of_suffix (List.suffix_cons t rest)).of_suffix hsuffix)
          (by omega) (by omega) hothers hrest
        exact bind_eq_ok.2 ⟨_, _, hon, bind_pure_eq_ok.2 ⟨_, hon', rfl⟩, rfl⟩
      · rw [hother (by simpa [nextKind] using ht)] at h
        cases h
        cases hrest

/-- The package clause is read to the end of its line. -/
theorem extends_packageClause : Extends more a false packageClause := by
  refine .bind (.skipSemicolons (by rw [hmore]; simp)) fun _ => .bind (.expect _ _) fun _ =>
    .bind (.expect _ _) fun package => ?_
  refine (?_ : Extends more true false (if package.text = "_" then _ else _))
  split
  · exact .bind (.fail fun _ => ⟨_, rfl⟩) fun _ => .bind (extends_specEnd false) fun _ => .pure _
  · exact .bind (extends_specEnd false) fun _ => .pure _

/-- **A header is read as it is read alone** if a declaration follows. -/
theorem header_append {tokens : List Token} {value : String × List Import}
    {references : List Reference} (hfinished : Finished tokens)
    (h : header tokens = .ok ⟨value, references, []⟩) :
    header (tokens ++ more) = .ok ⟨value, references, more⟩ := by
  obtain ⟨package, _, hpackage, hbehind, hvalue⟩ := bind_eq_ok.1 h
  obtain ⟨imported, himported, rfl⟩ := bind_pure_eq_ok.1 hbehind
  obtain ⟨hsuffix, -, hon⟩ :=
    extends_packageClause hmore (a := false) tokens package hfinished (by simp) hpackage
  have hrest : imported.rest = [] := by
    injection hvalue with _ _ hrest
    exact hrest.symm
  have himports := imports_append hmore (hfinished.of_suffix hsuffix)
    (Nat.lt_succ_self _)
      (show _ < (package.rest ++ more).length + 1 by rw [List.length_append]; omega)
    himported hrest
  have hparsed : (⟨value, references, more⟩ : Parsed (String × List Import)) = ⟨_, _, more⟩ :=
    congrArg (fun parsed => { parsed with rest := more }) hvalue
  rw [hparsed]
  exact bind_eq_ok.2 ⟨_, _, hon, bind_pure_eq_ok.2 ⟨_, himports, rfl⟩, rfl⟩

end

/-- A file is its header with declarations behind it. -/
theorem contents_of_header {path package : String} {imports : List Import} {tokens rest : List Token}
    (h : header tokens = .ok ⟨(package, imports), [], rest⟩) {parsed : Parsed (List Declaration)}
    (hparsed : Parser.bounded (declarations ⟨⟨path, package⟩, imports⟩) rest = .ok parsed) :
    contents path tokens =
      .ok ⟨⟨package, imports, parsed.value⟩, parsed.references, parsed.rest⟩ := by
  obtain ⟨⟨package', refs, _⟩, _, hpackage, hbehind, hvalue⟩ := Parser.bind_eq_ok.1 h
  obtain ⟨⟨imports', refs', _⟩, _, himported, hboth, rfl⟩ := Parser.bind_eq_ok.1 hbehind
  cases hboth
  injection hvalue with hvalue hrefs hrest
  obtain ⟨rfl, rfl⟩ := Prod.mk.inj hvalue
  subst hrest
  obtain ⟨rfl, rfl⟩ : refs = [] ∧ refs' = [] := by simpa [eq_comm] using hrefs
  rw [contents, Parser.bind_of_ok hpackage, Parser.bind_of_ok himported]
  refine Parser.bind_eq_ok.2 ⟨parsed, _, hparsed, rfl, ?_⟩
  simp

end Multicast.Syntax
