import Multicast.Proofs.Endings
import Multicast.Proofs.Exchange

/-!
# Grouped and single declarations

Imports, types, variables and constants are declared in a group or one by one (`IsForm`). Either way each
spec says what it says alone (`Says`), whatever ends it there, so the two forms can be exchanged
(`parseFile_exchange_form`). This holds of types that cannot be described, too.

As for every place in a file, such types in front of the declarations have to keep their delimiters in step.
Otherwise the attempt to read one of them may go on into the declarations behind it, where a parenthesis makes
a difference (`not_exchange_form_drip`).

## One statement for four keywords

The four readers of specs have this in common: in a group they let the parenthesis end the last spec. The
loops behind the keywords differ in what they make of the specs. So there is one relation for a reader of
specs (`Says`), and one for a loop with its keyword (`Loops`), and each of the four is shown to be one.
That a spec says the same in a group and outside comes from its end: a semicolon ends it in both, and a
closing parenthesis only where there is a group (`Multicast.Proofs.Endings`).

Specs are given by the tokens that a reader accepts alone. This keeps the statement from mentioning the
grammar at all.
-/

namespace Multicast.Syntax

open Source Multicast.Syntax.Parser

/-! ### Forms

Semicolons may stand anywhere between specs in a group, and between declarations. The relation allows
them, so that a text may be laid out in any way. -/

/-- What stands behind the parenthesis that opens a group: specs with semicolons behind them, where the last spec
may do without and more semicolons may stand anywhere, and the closing parenthesis. -/
inductive InGroup : List (List Token) → List Token → Prop
  | close {paren : Token} (hparen : paren.kind = .rightParen) : InGroup [] [paren]
  | semicolon {semicolon : Token} {specs : List (List Token)} {inner : List Token}
    (hsemicolon : semicolon.kind = .semicolon) (hmore : InGroup specs inner) :
    InGroup specs (semicolon :: inner)
  | last {spec : List Token} {paren : Token} (hparen : paren.kind = .rightParen) :
    InGroup [spec] (spec ++ [paren])
  | spec {spec : List Token} {specs : List (List Token)} {semicolon : Token} {inner : List Token}
    (hsemicolon : semicolon.kind = .semicolon) (hmore : InGroup specs inner) :
    InGroup (spec :: specs) (spec ++ semicolon :: inner)

/-- Specs one by one, each behind a keyword of its own. -/
inductive OneByOne (kw : Keyword) : List (List Token) → List Token → Prop
  | nil : OneByOne kw [] []
  | spec {first semicolon : Token} {spec : List Token} {specs : List (List Token)} {more : List Token}
    (hfirst : first.kind = .keyword kw) (hsemicolon : semicolon.kind = .semicolon)
    (hmore : OneByOne kw specs more) : OneByOne kw (spec :: specs) (first :: (spec ++ semicolon :: more))

/-- **Two forms of declarations**: specs in a group, or one by one. -/
inductive IsForm (kw : Keyword) (specs : List (List Token)) : List Token → Prop
  | group {first paren semicolon : Token} {inner : List Token} (hfirst : first.kind = .keyword kw)
    (hparen : paren.kind = .leftParen) (hinner : InGroup specs inner)
    (hsemicolon : semicolon.kind = .semicolon) : IsForm kw specs (first :: paren :: (inner ++ [semicolon]))
  | oneByOne {tokens : List Token} (h : OneByOne kw specs tokens) : IsForm kw specs tokens

/-! ### What a spec says -/

section

variable {α β : Type}

/-- A reader accepts a spec alone, with nothing but a semicolon behind it. -/
def AcceptsAlone (reader : Parser α) (spec : List Token) : Prop :=
  ∃ semicolon parsed, semicolon.kind = .semicolon ∧ reader (spec ++ [semicolon]) = .ok parsed ∧ parsed.rest = []

/-- **A spec behind a keyword** is what the reader behind this keyword accepts alone. -/
def IsSpec (scope : Scope) (kw : Keyword) (spec : List Token) : Prop :=
  match kw with
  | .importKw => AcceptsAlone (importSpec false) spec
  | .typeKw => AcceptsAlone (typeSpec scope false) spec
  | .varKw => AcceptsAlone (valueSpec .var) spec
  | .constKw => AcceptsAlone (valueSpec .const) spec
  | _ => False

/-- **What a spec says**, with the references that it reports, inside a group and outside. -/
structure Says (reader : Bool → Parser α) (spec : List Token) (said : α × List Reference) : Prop where
  begins : ∃ t more, spec = t :: more ∧ t.kind ≠ .semicolon ∧ t.kind ≠ .leftParen ∧ t.kind ≠ .rightParen
  semicolon : ∀ grouped t rest, t.kind = .semicolon →
    reader grouped (spec ++ t :: rest) = .ok ⟨said.1, said.2, rest⟩
  paren : ∀ t rest, t.kind = .rightParen → reader true (spec ++ t :: rest) = .ok ⟨said.1, said.2, t :: rest⟩

/-- A semicolon ends a spec, and is read. -/
theorem specEnd_semicolon {t : Token} (ht : t.kind = .semicolon) (grouped : Bool) (rest : List Token) :
    specEnd grouped (t :: rest) = .ok ⟨(), [], rest⟩ := by
  rw [specEnd, peek_cons, ht]
  rfl

/-- The parenthesis of a group ends a spec, and is left to the group. -/
theorem specEnd_rightParen {t : Token} (ht : t.kind = .rightParen) (rest : List Token) :
    specEnd true (t :: rest) = .ok ⟨(), [], t :: rest⟩ := by
  rw [specEnd, peek_cons, ht]
  rfl

/-- Where nothing is left behind a spec there was only its semicolon. -/
theorem length_of_specEnd {tokens : List Token} {parsed : Parsed Unit}
    (h : specEnd false tokens = .ok parsed) (hrest : parsed.rest = []) : tokens.length ≤ 1 := by
  cases tokens with
  | nil => simp
  | cons t rest =>
    rw [specEnd, peek_cons] at h
    cases hkind : t.kind <;> rw [hkind] at h <;> cases h
    simpa using hrest

/-- Where a spec is read in front of whatever ends it, it says the same inside a group and outside. -/
theorem exists_says_of_head {head : Parser α} {reader : Bool → Parser α} {spec : List Token}
    (hreader : ∀ grouped, reader grouped = head >>= fun a => specEnd grouped >>= fun _ => pure a)
    (hbegins : ∀ t rest parsed, head (t :: rest) = .ok parsed →
      t.kind ≠ .semicolon ∧ t.kind ≠ .leftParen ∧ t.kind ≠ .rightParen)
    (hended : ∀ {semicolon t : Token} {first : Parsed α}, semicolon.kind = .semicolon →
      head (spec ++ [semicolon]) = .ok first → first.rest.length ≤ 1 →
        t.kind = .semicolon ∨ t.kind = .rightParen →
          ∀ rest, head (spec ++ t :: rest) = .ok { first with rest := t :: rest })
    (h : AcceptsAlone (reader false) spec) : ∃ said, Says reader spec said := by
  obtain ⟨semicolon, parsed, hsemicolon, hok, hrest⟩ := h
  rw [hreader] at hok
  obtain ⟨first, second, hfirst, hsecond, rfl⟩ := bind_eq_ok.1 hok
  obtain ⟨ended, hend, rfl⟩ := bind_pure_eq_ok.1 hsecond
  have hshort := length_of_specEnd hend hrest
  have hread {t : Token} (ht : t.kind = .semicolon ∨ t.kind = .rightParen) {grouped : Bool}
      {rest behind : List Token} (hend : specEnd grouped (t :: rest) = .ok ⟨(), [], behind⟩) :
      reader grouped (spec ++ t :: rest) = .ok ⟨first.value, first.references, behind⟩ := by
    rw [hreader]
    refine bind_eq_ok.2 ⟨_, ⟨first.value, [], behind⟩, hended hsemicolon hfirst hshort ht rest, ?_, by simp⟩
    exact bind_of_ok hend
  refine ⟨(first.value, first.references), ?_, fun grouped t rest ht => ?_, fun t rest ht => ?_⟩
  · cases spec with
    | nil => exact absurd hsemicolon (hbegins _ _ _ hfirst).1
    | cons t more => exact ⟨t, more, rfl, hbegins _ _ _ hfirst⟩
  · exact hread (.inl ht) (specEnd_semicolon ht grouped rest)
  · exact hread (.inr ht) (specEnd_rightParen ht rest)

/-- An import that is accepted alone says something, in a group and outside. -/
theorem exists_says_import {spec : List Token} (h : AcceptsAlone (importSpec false) spec) :
    ∃ said, Says importSpec spec said := by
  refine exists_says_of_head importSpec_eq (fun t rest parsed hok => ?_) (fun hsemicolon hfirst hshort ht rest =>
    reads_ended (.of_echoes (echoes_importHead 0)) (fun _ => closes_importHead) hsemicolon hfirst hshort ht rest) h
  obtain ⟨_, _, halias, hbehind, rfl⟩ := bind_eq_ok.1 hok
  rw [importAlias] at halias
  split at halias
  next ht => rcases ht with ht | ht <;> simp [ht]
  next =>
    cases halias
    obtain ⟨_, _, hliteral, -, rfl⟩ := bind_eq_ok.1 hbehind
    rw [expect] at hliteral
    split at hliteral
    next ht => simp [ht]
    next => cases hliteral

/-- The spec of a type that is accepted alone says something, in a group and outside. -/
theorem exists_says_type {scope : Scope} {spec : List Token} (h : AcceptsAlone (typeSpec scope false) spec) :
    ∃ said, Says (typeSpec scope) spec said := by
  refine exists_says_of_head typeSpec_eq (fun t rest parsed hok => ?_) declaredType_ended h
  obtain ⟨_, _, _, heq, ht, -⟩ := declaredType_eq_ok_iff.1 hok
  cases heq
  simp [ht]

/-- A spec of values that is accepted alone says something, in a group and outside. -/
theorem exists_says_value {kind : ObjectKind} {spec : List Token} (h : AcceptsAlone (valueSpec kind) spec) :
    ∃ said, Says (fun _ => valueSpec kind) spec said := by
  obtain ⟨semicolon, parsed, hsemicolon, hok, hrest⟩ := h
  rw [valueSpec_eq] at hok
  obtain ⟨first, second, hfirst, hsecond, rfl⟩ := bind_eq_ok.1 hok
  obtain ⟨ended, hend, rfl⟩ := bind_pure_eq_ok.1 hsecond
  have hshort : first.rest.length ≤ 1 := by
    generalize first.rest = behind at hend
    rcases behind with _ | ⟨u, behind⟩
    · simp
    · by_cases hu : u.kind = .semicolon
      · rw [accept_of_eq hu] at hend
        cases hend
        simpa using hrest
      · rw [accept_of_ne (by simpa [nextKind] using hu)] at hend
        cases hend
        cases hrest
  have hread {t : Token} (ht : t.kind = .semicolon ∨ t.kind = .rightParen) {found : Bool}
      {rest behind : List Token} (hend : accept .semicolon (t :: rest) = .ok ⟨found, [], behind⟩) :
      valueSpec kind (spec ++ t :: rest) = .ok ⟨first.value, first.references, behind⟩ := by
    have hhead := reads_ended (.of_echoes (echoes_valueHead kind false 0)) (fun _ => closes_valueHead kind)
      hsemicolon hfirst hshort ht rest
    rw [valueSpec_eq]
    exact bind_eq_ok.2 ⟨_, ⟨first.value, [], behind⟩, hhead, bind_of_ok hend, by simp⟩
  refine ⟨(first.value, first.references), ?_, fun _ t rest ht => ?_, fun t rest ht => ?_⟩
  · cases spec with
    | nil =>
      rw [identifier_of_valueHead hfirst] at hsemicolon
      cases hsemicolon
    | cons t more => exact ⟨t, more, rfl, by simp [identifier_of_valueHead hfirst]⟩
  · exact hread (.inl ht) (accept_of_eq ht rest)
  · exact hread (.inr ht) (accept_of_ne (by simp [nextKind, ht]))

end

/-! ### Reading either form

In either form what is said comes in the order of the specs, and so do the references. The loop then goes
on in front of the same tokens. -/

section

variable {α β : Type} {more : Parser (List β)} {kw : Keyword} {reader : Bool → Parser α}
  {listed : List α → List β} {specs : List (List Token)} {said : List (α × List Reference)}

/-- What is read behind something else. -/
def Parsed.after (bs : List β) (references : List Reference) (parsed : Parsed (List β)) : Parsed (List β) :=
  ⟨bs ++ parsed.value, references ++ parsed.references, parsed.rest⟩

variable (more kw reader listed) in
/-- **A loop that reads declarations behind a keyword**, in a group or one at a time, and lists what they say. -/
structure Loops : Prop where
  round : ∀ t rest, t.kind = .keyword kw →
    more (t :: rest) = (group reader >>= fun first => more >>= fun others => pure (listed first ++ others)) rest
  same : ∀ us, SameAt 1 us (reader true) (reader true)
  nil : listed [] = []
  cons : ∀ a as, listed (a :: as) = listed [a] ++ listed as

/-- The specs of a group are read, whatever ends them. -/
theorem groupSpecs_eq (hsame : ∀ us, SameAt 1 us (reader true) (reader true)) {inner : List Token}
    (h : InGroup specs inner) (hsaid : List.Forall₂ (Says reader) specs said) (behind : List Token) :
    bounded (groupRest (reader true)) (inner ++ behind) =
      .ok ⟨said.map Prod.fst, said.flatMap Prod.snd, behind⟩ := by
  have hfirst {spec rest left : List Token} {a : α × List Reference} {others : List (α × List Reference)}
      (hspec : Says reader spec a) (hread : reader true (spec ++ rest) = .ok ⟨a.1, a.2, left⟩)
      (hothers : bounded (groupRest (reader true)) left =
        .ok ⟨others.map Prod.fst, others.flatMap Prod.snd, behind⟩) :
      bounded (groupRest (reader true)) (spec ++ rest) =
        .ok ⟨(a :: others).map Prod.fst, (a :: others).flatMap Prod.snd, behind⟩ := by
    obtain ⟨t, more, rfl, hends, -, hcloses⟩ := hspec.begins
    rw [List.cons_append, groupSpecs_spec hsame hends hcloses]
    exact bind_eq_ok.2 ⟨_, _, hread, bind_pure_eq_ok.2 ⟨_, hothers, rfl⟩, by simp⟩
  induction h generalizing said with
  | close hparen =>
    cases hsaid
    exact groupSpecs_rightParen _ hparen
  | semicolon hsemicolon _ ih =>
    rw [List.cons_append, groupSpecs_semicolon _ hsemicolon hsame]
    exact ih hsaid
  | last hparen =>
    obtain ⟨a, _, hspec, hnone, rfl⟩ := List.forall₂_cons_left_iff.1 hsaid
    cases hnone
    rw [List.append_assoc]
    exact hfirst hspec (hspec.paren _ _ hparen) (groupSpecs_rightParen _ hparen)
  | spec hsemicolon _ ih =>
    obtain ⟨a, others, hspec, hothers, rfl⟩ := List.forall₂_cons_left_iff.1 hsaid
    rw [List.append_assoc, List.cons_append]
    exact hfirst hspec (hspec.semicolon true _ _ hsemicolon) (ih hothers)

/-- **A group says what its specs say**, one after the other. -/
theorem group_inGroup (hsame : ∀ us, SameAt 1 us (reader true) (reader true)) {paren semicolon : Token}
    {inner : List Token} (hparen : paren.kind = .leftParen) (hsemicolon : semicolon.kind = .semicolon)
    (h : InGroup specs inner) (hsaid : List.Forall₂ (Says reader) specs said) (behind : List Token) :
    group reader (paren :: (inner ++ semicolon :: behind)) =
      .ok ⟨said.map Prod.fst, said.flatMap Prod.snd, behind⟩ := by
  rw [group, bind_of_ok (accept_of_eq hparen _), if_pos rfl]
  refine bind_eq_ok.2 ⟨_, ⟨said.map Prod.fst, [], behind⟩, groupSpecs_eq hsame h hsaid _, ?_, by simp⟩
  exact bind_of_ok (specEnd_semicolon hsemicolon false behind)

/-- A spec without a group says what it says in one. -/
theorem group_single {spec : List Token} {a : α × List Reference} (h : Says reader spec a) {semicolon : Token}
    (hsemicolon : semicolon.kind = .semicolon) (behind : List Token) :
    group reader (spec ++ semicolon :: behind) = .ok ⟨[a.1], a.2, behind⟩ := by
  have hread := h.semicolon false semicolon behind hsemicolon
  obtain ⟨t, more, rfl, -, hopens, -⟩ := h.begins
  rw [group, bind_of_ok (accept_of_ne (by simpa [nextKind] using hopens)), if_neg Bool.false_ne_true]
  exact bind_eq_ok.2 ⟨_, ⟨[a.1], [], behind⟩, hread, rfl, by simp⟩

/-- A keyword and what is read behind it come before what the loop reads next. -/
theorem Loops.eq_after (h : Loops more kw reader listed) {t : Token} (ht : t.kind = .keyword kw)
    {rest : List Token} {first : Parsed (List α)} (hfirst : group reader rest = .ok first) :
    more (t :: rest) = (more first.rest).map (Parsed.after (listed first.value) first.references) := by
  rw [h.round t rest ht]
  change (group reader >>= _).run rest = _
  rw [run_bind, run, hfirst]
  dsimp only
  rw [run_bind, run]
  cases more first.rest with
  | error e => rfl
  | ok others => simp [Except.map, Parsed.after, run, Pure.pure, done]

/-- **In either form the same is read.** -/
theorem Loops.form (h : Loops more kw reader listed) {tokens : List Token} (hform : IsForm kw specs tokens)
    (hsaid : List.Forall₂ (Says reader) specs said) (behind : List Token) :
    more (tokens ++ behind) =
      (more behind).map (Parsed.after (listed (said.map Prod.fst)) (said.flatMap Prod.snd)) := by
  cases hform with
  | group hfirst hparen hinner hsemicolon =>
    rw [List.cons_append, List.cons_append, List.append_assoc, List.singleton_append]
    exact h.eq_after hfirst (group_inGroup h.same hparen hsemicolon hinner hsaid behind)
  | oneByOne hone =>
    induction hone generalizing said with
    | nil =>
      cases hsaid
      cases hmore : more behind <;> simp [hmore, Except.map, Parsed.after, h.nil]
    | spec hfirst hsemicolon _ ih =>
      obtain ⟨a, others, hspec, hothers, rfl⟩ := List.forall₂_cons_left_iff.1 hsaid
      rw [List.cons_append, List.append_assoc, List.cons_append,
        h.eq_after hfirst (group_single hspec hsemicolon _)]
      dsimp only
      rw [ih hothers]
      cases more behind with
      | error e => rfl
      | ok parsed => simp [Except.map, Parsed.after, h.cons a.1 (others.map Prod.fst)]

theorem exists_said (h : ∀ spec ∈ specs, ∃ a, Says reader spec a) :
    ∃ said, List.Forall₂ (Says reader) specs said := by
  induction specs with
  | nil => exact ⟨[], .nil⟩
  | cons spec specs ih =>
    obtain ⟨hspec, hspecs⟩ := List.forall_mem_cons.1 h
    obtain ⟨a, ha⟩ := hspec
    obtain ⟨said, hsaid⟩ := ih hspecs
    exact ⟨a :: said, .cons ha hsaid⟩

/-- One form is read as the other. -/
theorem Loops.exchange (h : Loops more kw reader listed) (hspecs : ∀ spec ∈ specs, ∃ a, Says reader spec a)
    {form form' : List Token} (hform : IsForm kw specs form) (hform' : IsForm kw specs form')
    (behind : List Token) : more (form' ++ behind) = more (form ++ behind) := by
  obtain ⟨said, hsaid⟩ := exists_said hspecs
  rw [h.form hform' hsaid, h.form hform hsaid]

/-- The loop over the imports of a file. -/
theorem loops_imports : Loops (bounded imports) .importKw importSpec id where
  round t rest ht := by
    conv_lhs => rw [loop_imports.eq_round]
    exact bind_of_ok (accept_of_eq ht rest)
  same := same_importSpec true
  nil := rfl
  cons _ _ := rfl

variable {scope : Scope}

theorem reading_eq_round : reading scope .file = declarationsRound scope (reading scope .file) := by
  rw [← bounded_declarations]
  exact loop_declarations.eq_round

/-- The loop over declarations, at the keyword of a type. -/
theorem loops_types : Loops (reading scope .file) .typeKw (typeSpec scope) id where
  round t rest ht := by
    conv_lhs => rw [reading_eq_round, declarationsRound, peek_cons, ht]
    exact skip_cons
  same := same_typeSpec true
  nil := rfl
  cons _ _ := rfl

/-- The loop over declarations, at the keyword of a variable or a constant. -/
theorem loops_values {kind : ObjectKind} (h : kw = .varKw ∧ kind = .var ∨ kw = .constKw ∧ kind = .const) :
    Loops (reading scope .file) kw (fun _ => valueSpec kind) List.flatten where
  round t rest ht := by
    conv_lhs => rw [reading_eq_round, declarationsRound, peek_cons, ht]
    rcases h with ⟨rfl, rfl⟩ | ⟨rfl, rfl⟩ <;> exact skip_cons
  same := same_valueSpec kind
  nil := rfl
  cons _ _ := by simp

/-- **Below a header one form is read as the other.** -/
theorem reading_exchange (hne : specs ≠ []) {form form' : List Token} (hkw : kw ≠ .importKw)
    (hspecs : ∀ spec ∈ specs, IsSpec scope kw spec) (hform : IsForm kw specs form)
    (hform' : IsForm kw specs form') (behind : List Token) :
    reading scope .file (form' ++ behind) = reading scope .file (form ++ behind) := by
  obtain ⟨spec, hspec⟩ := List.exists_mem_of_ne_nil specs hne
  cases kw with
  | typeKw =>
    exact loops_types.exchange (fun spec hspec => exists_says_type (hspecs spec hspec)) hform hform' behind
  | varKw =>
    exact (loops_values (.inl ⟨rfl, rfl⟩)).exchange (fun spec hspec => exists_says_value (hspecs spec hspec))
      hform hform' behind
  | constKw =>
    exact (loops_values (.inr ⟨rfl, rfl⟩)).exchange (fun spec hspec => exists_says_value (hspecs spec hspec))
      hform hform' behind
  | importKw => exact absurd rfl hkw
  | _ => exact (hspecs spec hspec).elim

end

/-! ### Imports

Imports stand in the header, which is read before the declarations. A place among them is reached by
reading the imports in front of it, and nothing can be out of step there. -/

/-- Imports that are read up to a place in a header. -/
inductive ReachesImport : List Token → List Token → Prop
  | here {tokens : List Token} : ReachesImport tokens tokens
  | round {t : Token} {tokens rest : List Token} {first : Parsed (List Import)}
    (ht : t.kind = .keyword .importKw) (hfirst : group importSpec tokens = .ok first)
    (hmore : ReachesImport first.rest rest) : ReachesImport (t :: tokens) rest

/-- Imports that are read up to a place are read alike, whatever stands there. -/
theorem ReachesImport.again {tokens rest : List Token} (h : ReachesImport tokens rest) (hrest : rest ≠ []) :
    ∃ front is references, tokens = front ++ rest ∧ ∀ rest', rest' ≠ [] →
      bounded imports (front ++ rest') = (bounded imports rest').map (Parsed.after is references) := by
  induction h with
  | here =>
    refine ⟨[], [], [], rfl, fun rest' _ => ?_⟩
    rw [List.nil_append]
    cases bounded imports rest' <;> rfl
  | @round t tokens rest first ht hfirst hmore ih =>
    obtain ⟨front, is, references, hsplit, hagain⟩ := ih hrest
    obtain ⟨us, rfl, hover⟩ := isOver_groupImports _ _ hfirst
    refine ⟨t :: (us ++ front), first.value ++ is, first.references ++ references,
      by rw [hsplit, List.cons_append, List.append_assoc], fun rest' hrest' => ?_⟩
    have hread := hover (front ++ rest') fun hnil => by
      rw [hsplit] at hnil
      exact absurd (List.append_eq_nil_iff.1 hnil).2 hrest
    rw [List.cons_append, List.append_assoc, loops_imports.eq_after ht hread]
    dsimp only
    rw [hagain rest' hrest']
    cases bounded imports rest' with
    | error e => rfl
    | ok parsed => simp only [Except.map, Parsed.after, id, ← List.append_assoc]

/-- **Imports can be exchanged** for others that are read alike. -/
theorem contents_exchange_imports {path : String} {tokens part part' : List Token} {package : Parsed String}
    (hpackage : packageClause tokens = .ok package) (hreaches : ReachesImport package.rest part)
    (hpart : part ≠ []) (hpart' : part' ≠ []) (hread : bounded imports part' = bounded imports part) :
    ∃ before, tokens = before ++ part ∧ contents path (before ++ part') = contents path tokens := by
  obtain ⟨above, rfl, hover⟩ := isOver_packageClause _ _ hpackage
  obtain ⟨front, is, references, hsplit, hagain⟩ := hreaches.again hpart
  refine ⟨above ++ front, by rw [hsplit, List.append_assoc], ?_⟩
  have hpackage' : packageClause (above ++ (front ++ part')) = .ok { package with rest := front ++ part' } :=
    hover _ fun hnil => by
      rw [hsplit] at hnil
      exact absurd (List.append_eq_nil_iff.1 hnil).2 hpart
  have himports : bounded imports (front ++ part') = bounded imports package.rest := by
    rw [hsplit, hagain part' hpart', hagain part hpart, hread]
  change (packageClause >>= _).run _ = (packageClause >>= _).run _
  rw [run_bind, run_bind, run, run, List.append_assoc, hpackage, hpackage']
  dsimp only
  rw [run, run, bind_congr_first himports]

/-! ### Files -/

/-- **A place for declarations behind a keyword**: among the imports of a file, or below its header. -/
inductive IsFormPlace (path : String) (tokens : List Token) : Keyword → List Declaration → List Token → Prop
  | imports {package : Parsed String} {behind : List Token} (hpackage : packageClause tokens = .ok package)
    (hreaches : ReachesImport package.rest behind) : IsFormPlace path tokens .importKw [] behind
  | declarations {kw : Keyword} {ds : List Declaration} {behind : List Token} (hkw : kw ≠ .importKw)
    (hplace : IsPlace path tokens false ds behind) : IsFormPlace path tokens kw ds behind

/-- A form begins with its keyword. -/
theorem IsForm.begins {kw : Keyword} {specs : List (List Token)} (hne : specs ≠ []) {form : List Token}
    (h : IsForm kw specs form) : ∃ t more, form = t :: more ∧ t.kind = .keyword kw := by
  cases h with
  | group hfirst => exact ⟨_, _, rfl, hfirst⟩
  | oneByOne h =>
    cases h with
    | nil => exact absurd rfl hne
    | spec hfirst => exact ⟨_, _, rfl, hfirst⟩

/-- The scope of a file is told by its header. -/
theorem scope_eq {file text path : String} {ts : Tokens} {f : File} (hts : tokenize text = .ok ts)
    (h : parseFile file text path = .ok f) {top : Parsed (String × List Import)}
    (htop : header ts.list = .ok top) : f.scope path = ⟨⟨path, top.value.1⟩, top.value.2⟩ := by
  obtain ⟨_, c, references, rest, hts', hread, rfl⟩ := parseFile_eq_ok.1 h
  obtain rfl : _ = ts := Except.ok.inj (hts'.symm.trans hts)
  rw [contents_eq] at hread
  obtain ⟨top', _, htop', hbehind, heq⟩ := bind_eq_ok.1 hread
  obtain ⟨_, -, rfl⟩ := bind_pure_eq_ok.1 hbehind
  cases heq
  cases htop.symm.trans htop'
  rfl

/-- **Grouped and single declarations mean the same.** -/
theorem parseFile_exchange_form {file text path : String} {ts : Tokens} {f : File} {kw : Keyword}
    {ds : List Declaration} {specs : List (List Token)} {form behind : List Token}
    (hts : tokenize text = .ok ts) (h : parseFile file text path = .ok f)
    (hplace : IsFormPlace path ts.list kw ds (form ++ behind)) (hmatched : ∀ d ∈ ds, d.Matched ts.list)
    (hne : specs ≠ []) (hspecs : ∀ spec ∈ specs, IsSpec (f.scope path) kw spec) (hform : IsForm kw specs form) :
    ∃ before, ts.list = before ++ (form ++ behind) ∧ ∀ form', IsForm kw specs form' →
      contents path (before ++ (form' ++ behind)) = contents path ts.list ∧
      ∀ file' text' ts', tokenize text' = .ok ts' → SameWords ts'.list (before ++ (form' ++ behind)) →
        ∃ f', parseFile file' text' path = .ok f' ∧ f.SaysSame f' := by
  have hexchange : ∀ part', (∃ form', IsForm kw specs form' ∧ part' = form' ++ behind) →
      ∃ before, ts.list = before ++ (form ++ behind) ∧
        contents path (before ++ part') = contents path ts.list := by
    rintro _ ⟨form', hform', rfl⟩
    obtain ⟨t, more, hbegins, ht⟩ := hform.begins hne
    obtain ⟨t', more', hbegins', ht'⟩ := hform'.begins hne
    cases hplace with
    | imports hpackage hreaches =>
      refine contents_exchange_imports hpackage hreaches (by simp [hbegins]) (by simp [hbegins']) ?_
      exact loops_imports.exchange (fun spec hspec => exists_says_import (hspecs spec hspec)) hform hform' behind
    | declarations hkw hplace =>
      refine contents_exchange hplace hmatched (by simp [hbegins]) ?_ fun top htop => ?_
      · simpa [hbegins', nextKind, ht'] using hkw
      · rw [← scope_eq hts h htop]
        exact reading_exchange hne hkw hspecs hform hform' behind
  obtain ⟨before, hsplit, hall⟩ := parseFile_exchange_all hts h ⟨form, hform, rfl⟩ hexchange
  exact ⟨before, hsplit, fun form' hform' => hall _ ⟨form', hform', rfl⟩⟩

/-- A type that cannot be described, and a group of two more, of which one cannot be described either. -/
def crateText : String :=
  "package shelf\n\ntype Jar[T any] struct\x7b\x7d\n\ntype (\n\tBox[T any] struct\x7b\x7d\n\tCup struct\x7b size int \x7d\n)\n"

/-- The types of the group can be declared one by one. -/
theorem parseFile_exchange_form_crate : ∃ ts f ds specs, ∃ form behind : List Token,
    tokenize crateText = .ok ts ∧ parseFile "shelf.go" crateText "example.com/shelf" = .ok f ∧
    IsFormPlace "example.com/shelf" ts.list .typeKw ds (form ++ behind) ∧ (∀ d ∈ ds, d.Matched ts.list) ∧
    specs ≠ [] ∧ (∀ spec ∈ specs, IsSpec (f.scope "example.com/shelf") .typeKw spec) ∧ IsForm .typeKw specs form ∧
    ds.map (·.object.name) = ["Jar"] ∧ specs.map (·.map Token.text) =
      [["Box", "[", "T", "any", "]", "struct", "\x7b", "\x7d"], ["Cup", "struct", "\x7b", "size", "int", "\x7d"]] ∧
    ∃ before, ts.list = before ++ (form ++ behind) ∧ ∀ form', IsForm .typeKw specs form' →
      contents "example.com/shelf" (before ++ (form' ++ behind)) = contents "example.com/shelf" ts.list ∧
      ∀ file' text' ts', tokenize text' = .ok ts' → SameWords ts'.list (before ++ (form' ++ behind)) →
        ∃ f', parseFile file' text' "example.com/shelf" = .ok f' ∧ f.SaysSame f' := by
  obtain ⟨ts, f, ds, rest, hts, hfile, hplace, hcheck⟩ : ∃ ts f ds rest,
      tokenize crateText = .ok ts ∧ parseFile "shelf.go" crateText "example.com/shelf" = .ok f ∧
      IsPlace "example.com/shelf" ts.list false ds rest ∧
      (rest.head?.any fun kw =>
        (typeSpec (f.scope "example.com/shelf") false
          ((rest.drop 2).take 8 ++ [rest.getD 10 kw])).toOption.any fun box =>
        (typeSpec (f.scope "example.com/shelf") false
          ((rest.drop 11).take 6 ++ [rest.getD 17 kw])).toOption.any fun cup =>
        box.rest = [] ∧ cup.rest = [] ∧ (∀ d ∈ ds, d.Matched ts.list) ∧ ds.map (·.object.name) = ["Jar"] ∧
        rest = kw :: rest.getD 1 kw :: ((rest.drop 2).take 8 ++ rest.getD 10 kw ::
          ((rest.drop 11).take 6 ++ rest.getD 17 kw :: [rest.getD 18 kw]) ++ [rest.getD 19 kw]) ++ [] ∧
        kw.kind = .keyword .typeKw ∧ (rest.getD 1 kw).kind = .leftParen ∧
        (rest.getD 10 kw).kind = .semicolon ∧ (rest.getD 17 kw).kind = .semicolon ∧
        (rest.getD 18 kw).kind = .rightParen ∧ (rest.getD 19 kw).kind = .semicolon ∧
        ((rest.drop 2).take 8).map Token.text = ["Box", "[", "T", "any", "]", "struct", "\x7b", "\x7d"] ∧
        ((rest.drop 11).take 6).map Token.text = ["Cup", "struct", "\x7b", "size", "int", "\x7d"]) = true :=
    exists_place_of_any (n := 2) String.toList_ofList (by decide +kernel)
  obtain ⟨kw, -, hcheck⟩ := (Option.any_eq_true _ _).1 hcheck
  obtain ⟨box, hbox, hcheck⟩ := exists_ok_of_any hcheck
  obtain ⟨cup, hcup, hcheck⟩ := exists_ok_of_any hcheck
  obtain ⟨hboxRest, hcupRest, hmatched, hobjects, hsplit, hkw, hopen, hbehindBox, hbehindCup, hclose, hend,
    hboxText, hcupText⟩ := of_decide_eq_true hcheck
  have hform : IsForm .typeKw [(rest.drop 2).take 8, (rest.drop 11).take 6] _ :=
    .group hkw hopen (.spec hbehindBox (.spec hbehindCup (.close hclose))) hend
  have hspecs : ∀ spec ∈ [(rest.drop 2).take 8, (rest.drop 11).take 6],
      IsSpec (f.scope "example.com/shelf") .typeKw spec := by
    simp only [List.forall_mem_cons, List.not_mem_nil, false_imp_iff, implies_true, and_true]
    exact ⟨⟨_, box, hbehindBox, hbox, hboxRest⟩, ⟨_, cup, hbehindCup, hcup, hcupRest⟩⟩
  rw [hsplit] at hplace
  have hdeclared : IsFormPlace "example.com/shelf" ts.list .typeKw _ _ := .declarations (by simp) hplace
  exact ⟨ts, _, _, _, _, _, hts, hfile, hdeclared, hmatched, by simp, hspecs, hform, hobjects, by simp [hboxText, hcupText],
    parseFile_exchange_form hts hfile hdeclared hmatched (by simp) hspecs hform⟩

/-- A type that cannot be described, and a variable. The attempt to read the type goes on into the variable, where
the length of the array ends. -/
def dripText : String :=
  "package drip\n\ntype X [\x7d ; var Y = U[\x7b]]T[int]\n"

/-- The same text with the variable in a group. -/
def dripOther : String :=
  "package drip\n\ntype X [\x7d ; var (\n\tY = U[\x7b]]T[int]\n)\n"

/-- Where the delimiters of a type do not keep in step, a group behind it does not mean the same. -/
theorem not_exchange_form_drip : ∃ ts f ds spec, ∃ before form behind form' : List Token,
    tokenize dripText = .ok ts ∧ parseFile "drip.go" dripText "example.com/drip" = .ok f ∧
    f.declarations.map (fun d => d.object.name) = ["X", "Y"] ∧
    IsFormPlace "example.com/drip" ts.list .varKw ds (form ++ behind) ∧
    IsSpec (f.scope "example.com/drip") .varKw spec ∧ nest 0 (spec.map Token.kind) = some 0 ∧
    IsForm .varKw [spec] form ∧ IsForm .varKw [spec] form' ∧ ts.list = before ++ (form ++ behind) ∧
    (∃ e, contents "example.com/drip" (before ++ (form' ++ behind)) = .error e) ∧
    (∃ ts', tokenize dripOther = .ok ts' ∧ SameWords ts'.list (before ++ (form' ++ behind))) ∧
    ∃ e, parseFile "drip.go" dripOther "example.com/drip" = .error e := by
  have hother : tokenize dripOther = _ := tokenize_ofList _
  obtain ⟨ts, f, ds, rest, hts, hfile, hplace, hcheck⟩ : ∃ ts f ds rest,
      tokenize dripText = .ok ts ∧ parseFile "drip.go" dripText "example.com/drip" = .ok f ∧
      IsPlace "example.com/drip" ts.list false ds rest ∧
      (rest.head?.any fun kw => (tokenize dripOther).toOption.any fun ts' =>
        (valueSpec .var ((rest.drop 1).take 11 ++ [rest.getD 12 kw])).toOption.any fun var =>
        var.rest = [] ∧ nest 0 (((rest.drop 1).take 11).map Token.kind) = some 0 ∧
        f.declarations.map (fun d => d.object.name) = ["X", "Y"] ∧
        rest = kw :: ((rest.drop 1).take 11 ++ rest.getD 12 kw :: []) ++ [] ∧
        kw.kind = .keyword .varKw ∧ (rest.getD 12 kw).kind = .semicolon ∧
        (ts'.list.getD 9 kw).kind = .leftParen ∧ (ts'.list.getD 22 kw).kind = .rightParen ∧
        (ts'.list.getD 23 kw).kind = .semicolon ∧ ts.list = ts.list.take 8 ++ rest ∧
        (contents "example.com/drip" (ts.list.take 8 ++ (kw :: ts'.list.getD 9 kw ::
          ((rest.drop 1).take 11 ++ rest.getD 12 kw :: [ts'.list.getD 22 kw] ++
            [ts'.list.getD 23 kw]) ++ []))).toOption.isNone ∧
        SameWords ts'.list (ts.list.take 8 ++ (kw :: ts'.list.getD 9 kw ::
          ((rest.drop 1).take 11 ++ rest.getD 12 kw :: [ts'.list.getD 22 kw] ++
            [ts'.list.getD 23 kw]) ++ []))) = true := by
    rw [hother]
    exact exists_place_of_any (n := 2) String.toList_ofList (by decide +kernel)
  obtain ⟨kw, -, hcheck⟩ := (Option.any_eq_true _ _).1 hcheck
  obtain ⟨ts', hts', hcheck⟩ := exists_ok_of_any hcheck
  obtain ⟨var, hvar, hcheck⟩ := exists_ok_of_any hcheck
  obtain ⟨hvarRest, hnested, hobjects, hsplit, hkw, hsemicolon, hopen, hclose, hend, hall, hfails, hsame⟩ :=
    of_decide_eq_true hcheck
  have hrefused := exists_error_of_isNone hfails
  have hspec : IsSpec (f.scope "example.com/drip") .varKw ((rest.drop 1).take 11) :=
    ⟨_, var, hsemicolon, hvar, hvarRest⟩
  have hform : IsForm .varKw [(rest.drop 1).take 11] _ := .oneByOne (.spec hkw hsemicolon .nil)
  have hform' : IsForm .varKw [(rest.drop 1).take 11] _ :=
    .group hkw hopen (.spec hsemicolon (.close hclose)) hend
  rw [hsplit] at hplace
  exact ⟨ts, _, _, _, ts.list.take 8, _, _, _, hts, hfile, hobjects, .declarations (by simp) hplace, hspec, hnested,
    hform, hform', hsplit ▸ hall, hrefused, ⟨ts', hts', hsame⟩, parseFile_error_of_contents hts' hsame hrefused⟩

end Multicast.Syntax
