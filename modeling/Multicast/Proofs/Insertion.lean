import Mathlib.Data.List.InsertIdx
import Multicast.Proofs.Removal
import Multicast.Proofs.Verdicts

/-!
# Generic types in a file

A type spec can be added to a file wherever a type may be declared. If its type is written with generic
parts, what happens depends on the verdict (`parseFile_insert`): where it is seen that the type cannot be
described, the spec is kept as an unsupported object and the rest of the file reads as before; where it is
missed, the whole file is refused.

## From a spec to a file

What comes of a spec is settled in front of the token that ends it, and then the spec is one more round
(`reading_insert`). The rounds in front of it are made again, since they are read for good wherever they
stand at a place for a type, and so is the header. What follows the spec is left as it was; so in the case
that the type is seen not to be describable, the declarations are the old ones with one between them.

The verdict of the grammar decides only how the tokens are read. Whether the attempt is made at all is
decided before, by the look for type parameters. Both give the same kind of object, with different
reasons.
-/

namespace Multicast.Syntax

open Source Multicast.Syntax.Parser

section

variable {scope : Scope} {v : Verdict} {definition : List Word}

/-! ### Definitions -/

/-- A definition that begins with a bracket has three words at least. -/
theorem exists_third {w : Word} {more : List Word}
    (h : Written.Definition scope v (w :: more)) (hw : w.kind = .leftBracket) :
    ∃ second third others, more = second :: third :: others := by
  generalize hwords : w :: more = words at h
  cases h with
  | another assign h =>
    cases hwords
    cases hw
  | type h =>
    obtain ⟨n, h⟩ := h
    cases n with
    | zero => cases h
    | succ n =>
      have hu : Understood (Written.TypeWithin scope n) (typeWithin scope n) :=
        understood_typeWithin le_rfl
      cases h with
      | slice opening closing h =>
        obtain ⟨first, rest, rfl, -⟩ := hu.begins h
        cases hwords
        exact ⟨_, _, _, rfl⟩
      | @array opening closing _ length type hlength h =>
        obtain ⟨first, rest, rfl, -⟩ := hu.begins h
        cases hwords
        cases length with
        | nil => exact ⟨_, _, _, rfl⟩
        | cons second length => cases length <;> exact ⟨_, _, _, rfl⟩
      | name h =>
        cases h with
        | plain h => cases h <;> cases hwords <;> cases hw
        | applied h => cases h <;> cases hwords <;> cases hw
      | _ => cases hwords; cases hw

/-- Nothing is no definition. -/
theorem definition_ne_nil (h : Written.Definition scope v definition) : definition ≠ [] := by
  cases h with
  | another assign h => simp
  | type h =>
    obtain ⟨n, h⟩ := h
    obtain ⟨w, more, rfl, -⟩ := (understood_typeWithin (m := n) le_rfl).begins h
    simp

/-- Whether a definition counts as generic does not depend on what is behind it. -/
theorem isGeneric_eq {tokens : List Token} (h : Written.Definition scope v (tokens.map Token.word))
    (rest : List Token) :
    isGeneric (tokens ++ rest) = Written.opensParameters (tokens.map Token.word) := by
  cases tokens with
  | nil => exact absurd rfl (definition_ne_nil h)
  | cons t tokens =>
    by_cases ht : t.kind = .leftBracket
    · obtain ⟨second, third, others, hmore⟩ := exists_third h ht
      obtain ⟨u, tokens, rfl, rfl, htokens⟩ := List.map_eq_cons_iff.1 hmore
      obtain ⟨w, tokens, rfl, rfl, -⟩ := List.map_eq_cons_iff.1 htokens
      simp [isGeneric, Written.opensParameters, Token.word, bne, beq_eq_decide]
    · -- neither of them begins with a bracket
      have hgeneric : isGeneric (t :: (tokens ++ rest)) = false := by
        cases tokens ++ rest with
        | nil => rfl
        | cons u rest => simp [isGeneric, ht]
      have hopens : Written.opensParameters ((t :: tokens).map Token.word) = false := by
        rcases tokens with _ | ⟨u, _ | ⟨w, tokens⟩⟩
        · rfl
        · rfl
        · simp [Written.opensParameters, Token.word, ht]
      rw [List.cons_append, hgeneric, hopens]

theorem endsWritten_of_ends {next : Option Kind} (h : EndsDeclaration next) :
    endsWritten next = true := by
  cases next with
  | none => rfl
  | some kind =>
    have hkind := h kind rfl
    revert hkind
    cases kind <;> simp [Kind.isClosing, endsWritten, endsType]

/-- **What a definition with generic parts comes to**, in front of what ends a declaration. -/
theorem typeKind_of_definition {tokens rest : List Token}
    (h : Written.Definition scope v (tokens.map Token.word)) (hv : v ≠ .plain)
    (hrest : EndsDeclaration (nextKind rest)) :
    (v = .seen ∨ Written.opensParameters (tokens.map Token.word) = true →
      ∃ reason, typeKind scope (tokens ++ rest) = .ok ⟨.unsupported reason, [], rest⟩) ∧
    (v = .missed → Written.opensParameters (tokens.map Token.word) = false →
      ∃ e, typeKind scope (tokens ++ rest) = .error e) := by
  have hnested : nest 0 (tokens.map Token.kind) = some 0 := by
    have hall := h.nested.nest_zero
    rwa [List.map_map] at hall
  have hskip : skipNested 0 (tokens ++ rest) = .ok rest :=
    skipNested_eq_ok_iff.2 ⟨tokens, rfl, hnested, hrest⟩
  have hread := meets_typeDefinition h tokens rest rfl (endsWritten_of_ends hrest)
  have hkept {reason : String} (hreason : (isGeneric (tokens ++ rest) = true ∧ reason = genericReason) ∨
      (isGeneric (tokens ++ rest) = false ∧ ∃ e, typeDefinition scope (tokens ++ rest) = .error e ∧
        e.cause.isUnsupported = true ∧ reason = e.cause.message)) :
      ∃ reason, typeKind scope (tokens ++ rest) = .ok ⟨.unsupported reason, [], rest⟩ :=
    ⟨reason, typeKind_eq_ok_iff.2 (.inr ⟨reason, rest, hskip, rfl, hreason⟩)⟩
  rw [← isGeneric_eq h rest]
  cases hgeneric : isGeneric (tokens ++ rest) with
  | true => exact ⟨fun _ => hkept (.inl ⟨hgeneric, rfl⟩), fun _ hplain => by cases hplain⟩
  | false =>
    cases v with
    | plain => exact absurd rfl hv
    | seen =>
      obtain ⟨e, herror, hcause⟩ := hread
      exact ⟨fun _ => hkept (.inr ⟨hgeneric, e, herror, hcause, rfl⟩), fun hseen => by cases hseen⟩
    | missed =>
      obtain ⟨e, herror, hcause⟩ := hread
      refine ⟨fun hor => by simp at hor, fun _ _ => ⟨e, ?_⟩⟩
      rw [typeKind, if_neg (by simp [hgeneric]), herror]
      simp [hcause]

/-! ### Specs

In a group the spec may be the last one and do without a semicolon. This is the only difference that the
group makes. -/

/-- Where a type spec may stand, in a group or outside. -/
def Stage.ofGrouped (grouped : Bool) : Stage :=
  if grouped then .group else .file

theorem nextKind_of_eq {t : Token} {kind : Kind} (h : t.kind = kind) (rest : List Token) :
    nextKind (t :: rest) = some kind :=
  congrArg some h

/-- What is read behind a round that declares nothing. -/
theorem reading_of_round {s s' : Stage} {t : Token} {rest behind : List Token}
    (h : round scope s (t :: rest) = .ok ⟨([], s'), [], behind⟩) :
    reading scope s (t :: rest) = reading scope s' behind := by
  rw [reading_cons, bind_eq_map h]
  cases reading scope s' behind with
  | error e => rfl
  | ok more => simp [Except.map, Parsed.behind]

variable (scope) in
/-- A spec is read as the type that it declares, and behind it the reader goes on as if the spec were not
there. -/
theorem exists_declared {name : String} {grouped : Bool} {spec behind : List Token}
    (h : Written.Spec name definition grouped (spec.map Token.word) (behind.map Token.word)) :
    ∃ declared body ending, declared.kind = .identifier ∧ declared.text = name ∧
      body.map Token.word = definition ∧ EndsDeclaration (nextKind (ending ++ behind)) ∧
        reading scope (.behind grouped) (ending ++ behind) =
          reading scope (.ofGrouped grouped) behind ∧
        ∃ t ts, spec ++ behind = t :: ts ∧ round scope (.ofGrouped grouped) (t :: ts) =
          (declaredType scope >>= fun d => pure ([d], Stage.behind grouped))
            (declared :: (body ++ (ending ++ behind))) := by
  generalize hspec : spec.map Token.word = words at h
  generalize hbehind : behind.map Token.word = others at h
  -- a semicolon ends a declaration, and the reader skips it at both stages
  have hends {semicolon : Token} (hsemicolon : semicolon.kind = .semicolon) :
      EndsDeclaration (nextKind (semicolon :: behind)) := by
    rintro kind ⟨⟩
    exact .inl hsemicolon
  have hended {semicolon : Token} (hsemicolon : semicolon.kind = .semicolon) :
      reading scope (.behind grouped) (semicolon :: behind) =
        reading scope (.ofGrouped grouped) behind :=
    reading_of_round (by rw [round_of_nextKind _ (nextKind_of_eq hsemicolon _)]; rfl)
  cases h with
  -- alone, the keyword is part of the spec
  | single kw semicolon =>
    obtain ⟨t, _, rfl, ht, hmore⟩ := List.map_eq_cons_iff.1 hspec
    obtain ⟨declared, _, rfl, hdeclared, hmore⟩ := List.map_eq_cons_iff.1 hmore
    obtain ⟨body, _, rfl, hbody, hending⟩ := List.map_eq_append_iff.1 hmore
    obtain ⟨ending, rfl, hsemicolon⟩ := List.map_eq_singleton_iff.1 hending
    have hkind : declared.kind = .identifier := congrArg Word.kind hdeclared
    refine ⟨declared, body, [ending], hkind, congrArg Word.text hdeclared, hbody,
      hends (congrArg Word.kind hsemicolon), hended (congrArg Word.kind hsemicolon), t,
      declared :: (body ++ ([ending] ++ behind)), by simp, ?_⟩
    rw [Stage.ofGrouped, if_neg (by simp),
      round_of_nextKind _ (nextKind_of_eq (congrArg Word.kind ht) _), roundFrom, skip_cons]
    exact bind_of_ok (accept_of_ne (by simp [nextKind, hkind]))
  -- in a group, the spec begins with the name, as do its neighbours
  | grouped semicolon =>
    obtain ⟨declared, _, rfl, hdeclared, hmore⟩ := List.map_eq_cons_iff.1 hspec
    obtain ⟨body, _, rfl, hbody, hending⟩ := List.map_eq_append_iff.1 hmore
    obtain ⟨ending, rfl, hsemicolon⟩ := List.map_eq_singleton_iff.1 hending
    have hkind : declared.kind = .identifier := congrArg Word.kind hdeclared
    refine ⟨declared, body, [ending], hkind, congrArg Word.text hdeclared, hbody,
      hends (congrArg Word.kind hsemicolon), hended (congrArg Word.kind hsemicolon), declared,
      body ++ ([ending] ++ behind), by simp, ?_⟩
    rw [round_of_nextKind _ (nextKind_of_eq hkind _)]
    rfl
  -- at the end of a group nothing but the parenthesis ends the spec, and it is no part of it
  | last paren =>
    obtain ⟨declared, body, rfl, hdeclared, hbody⟩ := List.map_eq_cons_iff.1 hspec
    obtain ⟨closing, rest, rfl, hclosing, -⟩ := List.map_eq_cons_iff.1 hbehind
    have hkind : declared.kind = .identifier := congrArg Word.kind hdeclared
    have hparen : nextKind (closing :: rest) = some .rightParen :=
      nextKind_of_eq (congrArg Word.kind hclosing) _
    refine ⟨declared, body, [], hkind, congrArg Word.text hdeclared, hbody, ?_, ?_, declared, _, rfl, ?_⟩
    · rintro kind hnext
      rw [List.nil_append, hparen] at hnext
      cases hnext
      exact .inr rfl
    · -- the parenthesis closes the group behind the spec and in its place
      have hclosed (s : Stage) (hs : s = .behind true ∨ s = .group) :
          reading scope s (closing :: rest) = reading scope (.behind false) rest := by
        refine reading_of_round ?_
        rw [round_of_nextKind _ hparen]
        rcases hs with rfl | rfl <;> rfl
      rw [List.nil_append, hclosed _ (.inl rfl)]
      exact (hclosed _ (.inr rfl)).symm
    · rw [round_of_nextKind _ (nextKind_of_eq hkind _)]
      rfl

/-- **What a spec with generic parts comes to** among declarations. -/
theorem reading_insert {name : String} {grouped : Bool} {spec behind : List Token}
    {parsed : Parsed (List Declaration)}
    (hspec : Written.Spec name definition grouped (spec.map Token.word) (behind.map Token.word))
    (h : Written.Definition scope v definition) (hv : v ≠ .plain)
    (hparsed : reading scope (.ofGrouped grouped) behind = .ok parsed) :
    (v = .seen ∨ Written.opensParameters definition = true → ∃ reason pos,
      reading scope (.ofGrouped grouped) (spec ++ behind) =
        .ok (parsed.behind [⟨⟨name, .unsupported reason⟩, pos⟩] [])) ∧
    (v = .missed → Written.opensParameters definition = false →
      ∃ e, reading scope (.ofGrouped grouped) (spec ++ behind) = .error e) := by
  obtain ⟨declared, body, ending, hkind, rfl, rfl, hends, hbehind, t, ts, hsplit, hround⟩ :=
    exists_declared scope hspec
  obtain ⟨hseen, hmissed⟩ := typeKind_of_definition h hv hends
  rw [hsplit, reading_cons]
  constructor
  · intro hor
    obtain ⟨reason, hreason⟩ := hseen hor
    refine ⟨reason, declared.pos, ?_⟩
    have hfirst : round scope (.ofGrouped grouped) (t :: ts) =
        .ok ⟨([⟨⟨declared.text, .unsupported reason⟩, declared.pos⟩], .behind grouped), [],
          ending ++ behind⟩ := by
      rw [hround]
      exact bind_eq_ok.2 ⟨_, _, declaredType_eq_ok_iff.2 ⟨declared, _, _, rfl, hkind, hreason, rfl⟩,
        rfl, rfl⟩
    rw [bind_eq_map hfirst, hbehind, hparsed]
    rfl
  · intro hv hopens
    obtain ⟨e, he⟩ := hmissed hv hopens
    have hdeclared : declaredType scope (declared :: (body ++ (ending ++ behind))) = .error e :=
      bind_eq_error.2 (.inr ⟨_, if_pos hkind, bind_eq_error.2 (.inl he)⟩)
    refine ⟨e, bind_eq_error.2 (.inl ?_)⟩
    rw [hround]
    exact bind_eq_error.2 (.inl hdeclared)

end

/-! ### Files -/

/-- **A place for a type spec** in a file, in a group or outside: the header and the declarations in front
of it have been read, and there is `behind` ahead. -/
def IsPlace (path : String) (tokens : List Token) (grouped : Bool) (ds : List Declaration)
    (behind : List Token) : Prop :=
  ∃ top references, header tokens = .ok top ∧
    Reaches ⟨⟨path, top.value.1⟩, top.value.2⟩ .file top.rest ds references (.ofGrouped grouped) behind

/-- The place behind some rounds, if no group is open there. -/
def placeAfter (path : String) (n : Nat) (tokens : List Token) :
    Option (List Declaration × List Token) :=
  (header tokens).toOption.bind fun top =>
    (roundsAhead ⟨⟨path, top.value.1⟩, top.value.2⟩ n .file top.rest).bind fun place =>
      if place.2.1 = .file then some (place.1, place.2.2) else none

theorem isPlace_of_placeAfter {path : String} {n : Nat} {tokens behind : List Token}
    {ds : List Declaration} (h : placeAfter path n tokens = some (ds, behind)) :
    IsPlace path tokens false ds behind := by
  obtain ⟨top, htop, hplace⟩ := Option.bind_eq_some_iff.1 h
  obtain ⟨⟨ds, stage, rest⟩, hrounds, hstage⟩ := Option.bind_eq_some_iff.1 hplace
  split at hstage
  next hfile =>
    cases hstage
    obtain rfl : stage = .file := hfile
    obtain ⟨references, hreaches⟩ := exists_reaches_of_roundsAhead hrounds
    exact ⟨top, references, eq_ok_of_toOption htop, hreaches⟩
  next => cases hstage

/-- A text that is given by its characters is read, and there is a place in it. -/
theorem exists_place_of_any {path file text : String} {cs : List Char} {n : Nat}
    {check : Tokens → File → List Declaration → List Token → Bool} (htext : text.toList = cs)
    (h : (tokenizeChars cs).toOption.any (fun ts => (File.ofChars? path file cs).any fun f =>
      (placeAfter path n ts.list).any fun place => check ts f place.1 place.2) = true) :
    ∃ ts f ds behind, tokenize text = .ok ts ∧ parseFile file text path = .ok f ∧
      IsPlace path ts.list false ds behind ∧ check ts f ds behind = true := by
  rw [← htext, ← tokenize_eq_tokenizeChars, ← toOption_parseFile] at h
  obtain ⟨ts, hts, h⟩ := exists_ok_of_any h
  obtain ⟨f, hf, h⟩ := exists_ok_of_any h
  obtain ⟨⟨ds, behind⟩, hplace, hcheck⟩ := (Option.any_eq_true _ _).1 h
  exact ⟨ts, f, ds, behind, hts, hf, isPlace_of_placeAfter hplace, hcheck⟩

theorem isPlace_ofGrouped (grouped : Bool) : (Stage.ofGrouped grouped).isPlace = true := by
  cases grouped <;> rfl

/-- How a spec begins. -/
theorem nextKind_spec {name : String} {definition others : List Word} {grouped : Bool} {spec : List Token}
    (h : Written.Spec name definition grouped (spec.map Token.word) others) (rest : List Token) :
    nextKind (spec ++ rest) = some (if grouped then .identifier else .keyword .typeKw) := by
  rw [nextKind_append rfl]
  generalize spec.map Token.word = words at h
  cases h <;> rfl

/-- **A header is read again** where a spec has been added below it. -/
theorem header_insert {tokens before behind : List Token} {top : Parsed (String × List Import)}
    {name : String} {definition : List Word} {grouped : Bool} (hfinished : Finished tokens)
    (h : header tokens = .ok top) (hsplit : top.rest = before ++ behind)
    (hgrouped : top.rest = [] → grouped = false) :
    ∃ above, tokens = above ++ top.rest ∧ ∀ spec : List Token,
      Written.Spec name definition grouped (spec.map Token.word) (behind.map Token.word) →
        header (above ++ (before ++ (spec ++ behind))) =
          .ok { top with rest := before ++ (spec ++ behind) } := by
  obtain ⟨hnext, above, htokens, hagain⟩ := header_again h
  refine ⟨above, htokens, fun spec hspec => ?_⟩
  by_cases hnil : top.rest = []
  · obtain ⟨rfl, rfl⟩ := List.append_eq_nil_iff.1 (hsplit.symm.trans hnil)
    have hkind := nextKind_spec hspec []
    rw [hgrouped hnil, if_neg (by simp)] at hkind
    rw [hnil, List.append_nil] at htokens
    obtain ⟨value, references, rest⟩ := top
    obtain rfl : rest = [] := hnil
    exact htokens ▸ header_append hkind hfinished h
  · refine hagain _ ?_ fun hnone => absurd hnone hnil
    cases before with
    | nil =>
      rw [List.nil_append, nextKind_spec hspec]
      cases grouped <;> simp
    | cons t before =>
      rw [hsplit] at hnext
      exact hnext

theorem insertIdx_length_append (ds more : List Declaration) (d : Declaration) :
    (ds ++ more).insertIdx ds.length d = ds ++ d :: more := by
  induction ds with
  | nil => rfl
  | cons e ds ih => simp [ih]

/-- **What a spec with generic parts comes to** in a file. -/
theorem contents_insert {path : String} {tokens : List Token} {parsed : Parsed Contents} {grouped : Bool}
    {ds : List Declaration} {behind : List Token} {name : String} {v : Verdict} {definition : List Word}
    (hfinished : Finished tokens) (h : contents path tokens = .ok parsed)
    (hplace : IsPlace path tokens grouped ds behind) (hmatched : ∀ d ∈ ds, d.Matched tokens)
    (hdefinition : Written.Definition ⟨⟨path, parsed.value.package⟩, parsed.value.imports⟩ v definition)
    (hv : v ≠ .plain) : ∃ before, tokens = before ++ behind ∧ ∀ spec : List Token,
      Written.Spec name definition grouped (spec.map Token.word) (behind.map Token.word) →
        (v = .seen ∨ Written.opensParameters definition = true → ∃ reason pos,
          contents path (before ++ (spec ++ behind)) = .ok { parsed with value := { parsed.value with
            declarations := parsed.value.declarations.insertIdx ds.length
              ⟨⟨name, .unsupported reason⟩, pos⟩ } }) ∧
        (v = .missed → Written.opensParameters definition = false →
          ∃ e, contents path (before ++ (spec ++ behind)) = .error e) := by
  obtain ⟨top, references, htop, hreaches⟩ := hplace
  rw [contents_eq] at h ⊢
  obtain ⟨_, _, htop', hbelow, rfl⟩ := bind_eq_ok.1 h
  cases htop.symm.trans htop'
  obtain ⟨read, hread, rfl⟩ := bind_pure_eq_ok.1 hbelow
  dsimp only at hdefinition hread ⊢
  obtain ⟨_, hsuffix, -⟩ := (header_again htop).2
  obtain ⟨before, hsplit, -, hagain⟩ := hreaches.again (isPlace_ofGrouped grouped) fun d hd =>
    (hmatched d hd).of_suffix ⟨_, hsuffix.symm⟩
  have hgrouped : top.rest = [] → grouped = false := by
    intro hnil
    rw [hnil] at hreaches
    generalize hs : Stage.ofGrouped grouped = s at hreaches
    cases hreaches with
    | here => cases grouped <;> first | rfl | cases hs
    | round hfirst _ => cases hfirst
  obtain ⟨above, htokens, hheader⟩ := header_insert hfinished htop hsplit hgrouped
  refine ⟨above ++ before, by rw [htokens, hsplit, List.append_assoc], fun spec hspec => ?_⟩
  rw [List.append_assoc]
  -- behind the place the declarations read as they have been read
  rw [hreaches.reading_eq] at hread
  generalize hmore : reading ⟨⟨path, top.value.1⟩, top.value.2⟩ (.ofGrouped grouped) behind = more at hread
  obtain _ | more := more
  · cases hread
  cases hread
  obtain ⟨hseen, hmissed⟩ := reading_insert hspec hdefinition hv hmore
  constructor
  · intro hor
    obtain ⟨reason, pos, hreading⟩ := hseen hor
    refine ⟨reason, pos, bind_eq_ok.2 ⟨_, _, hheader spec hspec, bind_eq_ok.2 ⟨_, _,
      (hagain (spec ++ behind)).reading_eq.trans (congrArg _ hreading), rfl, rfl⟩, ?_⟩⟩
    simp [Parsed.behind, insertIdx_length_append]
  · intro hmiss hopens
    obtain ⟨e, he⟩ := hmissed hmiss hopens
    exact ⟨e, bind_eq_error.2 (.inr ⟨_, hheader spec hspec,
      bind_eq_error.2 (.inl ((hagain (spec ++ behind)).reading_eq.trans (congrArg _ he)))⟩)⟩

/-- **What a spec with generic parts comes to in a text.** Where it is seen that its type cannot be
described, and where the definition begins as type parameters do, the spec is kept as an unsupported
object, and everything else reads as before. Where it is missed, the text is refused. -/
theorem parseFile_insert {file text path : String} {ts : Tokens} {f : File} {grouped : Bool}
    {ds : List Declaration} {behind : List Token} {name : String} {v : Verdict} {definition : List Word}
    (hts : tokenize text = .ok ts) (h : parseFile file text path = .ok f)
    (hplace : IsPlace path ts.list grouped ds behind) (hmatched : ∀ d ∈ ds, d.Matched ts.list)
    (hdefinition : Written.Definition (f.scope path) v definition) (hv : v ≠ .plain) :
    ∃ before, ts.list = before ++ behind ∧ ∀ file' text' ts' spec, tokenize text' = .ok ts' →
      Written.Spec name definition grouped spec (behind.map Token.word) →
      ts'.list.map Token.word = before.map Token.word ++ (spec ++ behind.map Token.word) →
        (v = .seen ∨ Written.opensParameters definition = true → ∃ f' reason,
          parseFile file' text' path = .ok f' ∧ f'.package = f.package ∧ f'.imports = f.imports ∧
            f'.declarations.map Declaration.object =
              (f.declarations.map Declaration.object).insertIdx ds.length ⟨name, .unsupported reason⟩ ∧
            f'.references.map Reference.name = f.references.map Reference.name) ∧
        (v = .missed → Written.opensParameters definition = false →
          ∃ e, parseFile file' text' path = .error e) := by
  obtain ⟨_, c, references, rest, hts', hread, rfl⟩ := parseFile_eq_ok.1 h
  obtain rfl : _ = ts := Except.ok.inj (hts'.symm.trans hts)
  obtain ⟨before, hsplit, hinsert⟩ :=
    contents_insert (finished_of_tokenize hts) hread hplace hmatched hdefinition hv
  refine ⟨before, hsplit, fun file' text' ts' spec hts' hspec hwords => ?_⟩
  obtain ⟨us, _, hus, hbefore, hmore⟩ := List.map_eq_append_iff.1 hwords
  obtain ⟨added, ws, rfl, rfl, hws⟩ := List.map_eq_append_iff.1 hmore
  -- only the words of the text are given, so its tokens are read like those that were worked with
  have hsame : SameWords ts'.list (before ++ (added ++ behind)) := by
    simp [SameWords, hus, hbefore, hws]
  have halike := alike_contents path _ _ hsame
  obtain ⟨hseen, hmissed⟩ := hinsert added hspec
  constructor
  · intro hor
    obtain ⟨reason, pos, hok⟩ := hseen hor
    rw [hok] at halike
    generalize hresult : contents path ts'.list = result at halike
    obtain ⟨hvalue, hreferences, -⟩ | _ := halike
    refine ⟨_, reason, parseFile_eq_ok.2 ⟨ts', _, _, _, hts', hresult, rfl⟩, hvalue.package,
      hvalue.imports, ?_, hreferences⟩
    exact (objects_eq hvalue.declarations).trans (List.map_insertIdx ..)
  · intro hmiss hopens
    obtain ⟨e, he⟩ := hmissed hmiss hopens
    rw [he] at halike
    cases hresult : parseFile file' text' path with
    | error e => exact ⟨e, rfl⟩
    | ok f' =>
      obtain ⟨_, _, _, _, hts'', hok, -⟩ := parseFile_eq_ok.1 hresult
      obtain rfl := Except.ok.inj (hts''.symm.trans hts')
      rw [hok] at halike
      cases halike

/-- Type arguments behind a name. -/
def instanceWords : List Word :=
  [⟨.identifier, "Box"⟩, ⟨.leftBracket, "["⟩, ⟨.identifier, "int"⟩, ⟨.rightBracket, "]"⟩]

theorem typeWithin_instanceWords (scope : Scope) : Written.TypeWithin scope 2 .seen instanceWords := by
  have hint : Written.TypeWithin scope 1 .plain [⟨.identifier, "int"⟩] :=
    .name (.plain (.bare "int"))
  exact .name (.applied (.bare "Box") (.last hint) "[" "]")

/-- A function type with a parameter of a generic type, or with an unnamed one. -/
def funcWords (named : Bool) : List Word :=
  ⟨.keyword .funcKw, "func"⟩ :: ⟨.leftParen, "("⟩ ::
    ((if named then ⟨.identifier, "box"⟩ :: instanceWords else instanceWords) ++ [⟨.rightParen, ")"⟩])

/-- The type arguments are seen behind the name of a parameter, and missed without one. -/
theorem definition_funcWords (scope : Scope) (named : Bool) :
    Written.Definition scope (if named then .seen else .missed) (funcWords named) := by
  have hentry : Written.Entry (Written.TypeWithin scope 2) named false
      (if named then .seen else .missed)
      (if named then ⟨.identifier, "box"⟩ :: instanceWords else instanceWords) := by
    cases named with
    | true => exact .named "box" (typeWithin_instanceWords scope)
    | false => exact .unnamed (typeWithin_instanceWords scope)
  exact .type ⟨3, .func "func" (.bare (.list "(" (.last hentry (by simp) ")")))⟩

/-- Two types, of which the first cannot be described. -/
def shelfText : String :=
  "package shelf\n\ntype Box[T any] struct\x7b\x7d\n\ntype Cup int\n"

/-- Between the two types a spec with generic parts can be added. -/
theorem parseFile_insert_shelf : ∃ ts f ds behind, tokenize shelfText = .ok ts ∧
    parseFile "shelf.go" shelfText "example.com/shelf" = .ok f ∧
    IsPlace "example.com/shelf" ts.list false ds behind ∧ (∀ d ∈ ds, d.Matched ts.list) ∧
    ds.map (·.object.name) = ["Box"] ∧
    Written.Definition (f.scope "example.com/shelf") .seen (funcWords true) ∧
    ∃ before, ts.list = before ++ behind ∧ ∀ file' text' ts' spec, tokenize text' = .ok ts' →
      Written.Spec "Open" (funcWords true) false spec (behind.map Token.word) →
      ts'.list.map Token.word = before.map Token.word ++ (spec ++ behind.map Token.word) →
        (Verdict.seen = .seen ∨ Written.opensParameters (funcWords true) = true → ∃ f' reason,
          parseFile file' text' "example.com/shelf" = .ok f' ∧ f'.package = f.package ∧
            f'.imports = f.imports ∧ f'.declarations.map Declaration.object =
              (f.declarations.map Declaration.object).insertIdx ds.length ⟨"Open", .unsupported reason⟩ ∧
            f'.references.map Reference.name = f.references.map Reference.name) ∧
        (Verdict.seen = .missed → Written.opensParameters (funcWords true) = false →
          ∃ e, parseFile file' text' "example.com/shelf" = .error e) := by
  obtain ⟨ts, f, ds, behind, hts, hfile, hplace, hcheck⟩ : ∃ ts f ds behind,
      tokenize shelfText = .ok ts ∧ parseFile "shelf.go" shelfText "example.com/shelf" = .ok f ∧
      IsPlace "example.com/shelf" ts.list false ds behind ∧
      decide ((∀ d ∈ ds, d.Matched ts.list) ∧ ds.map (·.object.name) = ["Box"]) = true :=
    exists_place_of_any (n := 2) String.toList_ofList (by decide +kernel)
  obtain ⟨hmatched, hnames⟩ := of_decide_eq_true hcheck
  have hdefinition (scope : Scope) : Written.Definition scope .seen (funcWords true) :=
    definition_funcWords scope true
  exact ⟨ts, _, _, _, hts, hfile, hplace, hmatched, hnames, hdefinition _,
    parseFile_insert hts hfile hplace hmatched (hdefinition _) (by simp)⟩

/-- A package clause alone. -/
def bareText : String :=
  "package bare\n"

/-- The package clause with a function type below that has an unnamed parameter of a generic type. -/
def openText : String :=
  "package bare\n\ntype Open func(Box[int])\n"

/-- **Type arguments of an unnamed parameter are refused**, and the file with them. -/
theorem not_insert_open : ∃ ts f behind spec ts', tokenize bareText = .ok ts ∧
    parseFile "bare.go" bareText "example.com/bare" = .ok f ∧
    IsPlace "example.com/bare" ts.list false [] behind ∧
    Written.Definition (f.scope "example.com/bare") .missed (funcWords false) ∧
    Written.Spec "Open" (funcWords false) false spec (behind.map Token.word) ∧
    tokenize openText = .ok ts' ∧ (∃ before, ts.list = before ++ behind ∧
      ts'.list.map Token.word = before.map Token.word ++ (spec ++ behind.map Token.word)) ∧
    ∃ e, parseFile "bare.go" openText "example.com/bare" = .error e := by
  have hchars : tokenize bareText = _ := tokenize_ofList _
  have hother : tokenize openText = _ := tokenize_ofList _
  have hcheck : (tokenize bareText).toOption.any (fun ts =>
      (contents "example.com/bare" ts.list).toOption.any fun parsed =>
        (header ts.list).toOption.any fun top => top.rest = [] ∧
          (tokenize openText).toOption.any fun ts' => ts'.list.map Token.word =
            ts.list.map Token.word ++ (⟨.keyword .typeKw, "type"⟩ :: ⟨.identifier, "Open"⟩ ::
              (funcWords false ++ [⟨.semicolon, "\n"⟩]))) = true := by
    rw [hchars, hother]
    decide +kernel
  have hfails : (parseFile "bare.go" openText "example.com/bare").toOption.isNone = true := by
    rw [toOption_parseFile, openText, String.toList_ofList]
    decide +kernel
  obtain ⟨ts, hts, hcheck⟩ := exists_ok_of_any hcheck
  obtain ⟨⟨c, references, rest⟩, hread, hcheck⟩ := exists_ok_of_any hcheck
  obtain ⟨top, htop, hcheck⟩ := exists_ok_of_any hcheck
  obtain ⟨hrest, hcheck⟩ := of_decide_eq_true hcheck
  obtain ⟨ts', hts', hwords⟩ := exists_ok_of_any hcheck
  have hfile : parseFile "bare.go" bareText "example.com/bare" = .ok _ :=
    parseFile_eq_ok.2 ⟨ts, _, _, _, hts, hread, rfl⟩
  refine ⟨ts, _, [], _, ts', hts, hfile, ⟨top, [], htop, hrest ▸ .here⟩, definition_funcWords _ false,
    .single "type" "\n", hts', ⟨ts.list, by simp, ?_⟩, exists_error_of_isNone hfails⟩
  rw [of_decide_eq_true hwords, List.map_nil, List.append_nil]

end Multicast.Syntax
