import Mathlib.Logic.Relation
import Multicast.Proofs.Bodies
import Multicast.Proofs.Onwards
import Multicast.Proofs.SourcesAlike

/-!
# Blank names

A function, a variable or a constant named `_` declares nothing: it is read, and dropped by the reader of its
own kind (`reading_adds`). So any number of them may be added to the files of a package, alone or in groups,
and loading comes to the same (`ofSources_addsBlanks`). The place where one is added is behind tokens that
could be a file by themselves.

Types are not dropped. A type named `_` is an object of its package as any other one is. It is found under
this name, and a second one is a redeclaration (`not_agree_slip`).

## How the result is put together

A blank declaration may be added where a declaration may begin, or behind the parenthesis that opens a
group of variables or constants (`Adds`, `AddsToGroup`). Reading is shown to come to the same from there,
and what has been read before is the same anyway; this gives the contents of one file with one addition
(`contents_addsBlank`), and by induction on the additions with any number of them. A source of a package
then says the same with them (`WithBlanks.saysSame`), whatever its build constraints are, and packages are
known to depend on nothing else (`Multicast.Proofs.SourcesAlike`).

The condition on the place, that the tokens in front could be a file by themselves, is what makes the
reader be where a declaration may begin. Inside of a body it is nowhere near it.
-/

namespace Multicast.Syntax

open Source Multicast.Syntax.Parser

/-! ### Blank variables and constants

Variables and constants have one reader, which is given what they are. So there is one statement for both. -/

/-- **Variables or constants named `_`**, behind their keyword. -/
inductive BlankSpec : List Token → Prop
  | intro {names body : List Token} (hnames : Written.Names (names.map Token.word))
    (hblank : ∀ t ∈ names, t.kind = .identifier → t.text = "_") (hbody : IsBody true body) :
    BlankSpec (names ++ body)

/-- **What may be added to a group of variables or constants**, behind its opening parenthesis: another
declaration of `_`, and semicolons. -/
inductive AddsToGroup : List Token → List Token → Prop
  | semicolon {t : Token} {rest : List Token} (ht : t.kind = .semicolon) : AddsToGroup rest (t :: rest)
  | spec {spec rest : List Token} (hspec : BlankSpec spec) (hends : EndsDeclaration (nextKind rest)) :
    AddsToGroup rest (spec ++ rest)
  | behindSemicolon {t : Token} {rest rest' : List Token} (ht : t.kind = .semicolon)
    (h : AddsToGroup rest rest') : AddsToGroup (t :: rest) (t :: rest')
  | behindSpec {names body rest rest' : List Token} (hnames : Written.Names (names.map Token.word))
    (hbody : IsBody true body) (hends : EndsDeclaration (nextKind rest))
    (hends' : EndsDeclaration (nextKind rest')) (h : AddsToGroup rest rest') :
    AddsToGroup (names ++ (body ++ rest)) (names ++ (body ++ rest'))

section

variable {kind : ObjectKind} {rest rest' : List Token}

/-- Reads variables or constants behind the opening parenthesis of their group. -/
def valueGroup (kind : ObjectKind) : Parser (List Declaration × Stage) := do
  let specs ← bounded (groupRest (valueSpec kind))
  return (specs.flatten, .behind false)

theorem values_leftParen {paren : Token} (hparen : paren.kind = .leftParen) (rest : List Token) :
    values kind (paren :: rest) = valueGroup kind rest :=
  bind_of_ok (accept_of_eq hparen rest)

theorem valueGroup_semicolon {t : Token} (ht : t.kind = .semicolon) (rest : List Token) :
    valueGroup kind (t :: rest) = valueGroup kind rest :=
  bind_congr_first (groupSpecs_semicolon _ ht (same_valueSpec kind))

theorem valueGroup_rightParen {t : Token} (ht : t.kind = .rightParen) (rest : List Token) :
    valueGroup kind (t :: rest) = .ok ⟨([], .behind false), [], rest⟩ :=
  bind_of_ok (groupSpecs_rightParen _ ht)

theorem declaredBy_blank {names : List Token} (hblank : ∀ t ∈ names, t.kind = .identifier → t.text = "_") :
    declaredBy kind names = [] := by
  have hnone : (names.filter (·.kind = .identifier)).filter (·.text ≠ "_") = [] := by
    simpa [List.filter_eq_nil_iff, not_imp_not] using hblank
  rw [declaredBy, hnone, List.map_nil]

/-- What a spec declares stands in front of what the rest of its group does. -/
theorem valueGroup_spec {names body : List Token} (hnames : Written.Names (names.map Token.word))
    (hbody : IsBody true body) (hends : EndsDeclaration (nextKind rest)) :
    valueGroup kind (names ++ (body ++ rest)) =
      (valueGroup kind >>= fun more => pure (declaredBy kind names ++ more.1, more.2)) rest := by
  have hread := groupSpecs_value_eq kind hnames hbody hends
  have hgroup : valueGroup kind (names ++ (body ++ rest)) = (accept .semicolon >>= fun _ =>
      valueGroup kind >>= fun more => pure (declaredBy kind names ++ more.1, more.2)) rest := by
    rw [valueGroup, bind_congr_first hread]
    simp only [bind_assoc, pure_bind, List.flatten_cons]
  rw [hgroup]
  -- the loop skips semicolons, so it is no matter whether the spec has read one
  by_cases hnext : nextKind rest = some .semicolon
  · obtain ⟨t, rest, rfl, ht⟩ := exists_cons_of_nextKind hnext
    rw [bind_of_ok (accept_of_eq ht rest)]
    exact bind_congr_first (valueGroup_semicolon ht rest).symm
  · exact bind_of_ok (accept_of_ne hnext)

/-- **Nothing is declared by what is added to a group.** -/
theorem valueGroup_adds (h : AddsToGroup rest rest') : valueGroup kind rest' = valueGroup kind rest := by
  induction h with
  | semicolon ht => exact valueGroup_semicolon ht _
  | spec hspec hends =>
    obtain ⟨hnames, hblank, hbody⟩ := hspec
    rw [List.append_assoc, valueGroup_spec hnames hbody hends, declaredBy_blank hblank]
    exact congrFun (bind_pure (valueGroup kind)) _
  | behindSemicolon ht _ ih => rw [valueGroup_semicolon ht _, valueGroup_semicolon ht _, ih]
  | behindSpec hnames hbody hends hends' _ ih =>
    rw [valueGroup_spec hnames hbody hends, valueGroup_spec hnames hbody hends']
    exact bind_congr_first ih

end

/-! ### Blank declarations -/

/-- **What may be added to a file where a declaration may begin**: functions, variables and constants
named `_`, alone or in a group, and semicolons. -/
inductive Adds : List Token → List Token → Prop
  | semicolon {t : Token} {rest : List Token} (ht : t.kind = .semicolon) : Adds rest (t :: rest)
  | func {kw declared t : Token} {receiver body rest : List Token} (hkw : kw.kind = .keyword .funcKw)
    (hreceiver : IsReceiver receiver) (hdeclared : declared.kind = .identifier)
    (hblank : declared.text = "_") (hbody : IsBody false body) (ht : t.kind = .semicolon) :
    Adds (t :: rest) (kw :: (receiver ++ [declared]) ++ (body ++ t :: rest))
  | values {kw t : Token} {spec rest : List Token}
    (hkw : kw.kind = .keyword .varKw ∨ kw.kind = .keyword .constKw) (hspec : BlankSpec spec)
    (ht : t.kind = .semicolon) : Adds (t :: rest) (kw :: (spec ++ t :: rest))
  | group {kw opening closing t : Token} {rest : List Token}
    (hkw : kw.kind = .keyword .varKw ∨ kw.kind = .keyword .constKw) (hopening : opening.kind = .leftParen)
    (hclosing : closing.kind = .rightParen) (ht : t.kind = .semicolon) :
    Adds (t :: rest) (kw :: opening :: closing :: t :: rest)
  | inGroup {kw opening : Token} {rest rest' : List Token}
    (hkw : kw.kind = .keyword .varKw ∨ kw.kind = .keyword .constKw) (hopening : opening.kind = .leftParen)
    (h : AddsToGroup rest rest') : Adds (kw :: opening :: rest) (kw :: opening :: rest')

section

variable {scope : Scope} {tokens tokens' : List Token}

/-- No import begins with what is added. -/
theorem Adds.nextKind_import (h : Adds tokens tokens') (hnext : nextKind tokens' = some (.keyword .importKw)) :
    nextKind tokens = some (.keyword .importKw) := by
  cases h with
  | semicolon ht => simp [nextKind, ht] at hnext
  | func hkw => simp [nextKind, hkw] at hnext
  | values hkw | group hkw => rcases hkw with hkw | hkw <;> simp [nextKind, hkw] at hnext
  | inGroup => exact hnext

theorem reading_semicolon {s : Stage} (hs : s = .file ∨ s = .skipped ∨ s = .behind false) {t : Token}
    (ht : t.kind = .semicolon) (rest : List Token) :
    reading scope s (t :: rest) = reading scope .file rest := by
  refine reading_of_round ?_
  rw [round_of_nextKind _ (nextKind_of_eq ht _)]
  rcases hs with rfl | rfl | rfl <;> exact skip_cons

/-- **A blank declaration is read, and nothing is declared by it.** -/
theorem reading_adds (h : Adds tokens tokens') :
    reading scope .file tokens' = reading scope .file tokens := by
  have hends {t : Token} (ht : t.kind = .semicolon) (rest : List Token) :
      EndsDeclaration (nextKind (t :: rest)) := by
    rintro kind ⟨⟩
    exact .inl ht
  -- what is declared alone ends with a semicolon, and this one could stand there without it
  have hended {s : Stage} (hs : s = .skipped ∨ s = .behind false) {kw t : Token} {more rest : List Token}
      (ht : t.kind = .semicolon)
      (hround : round scope .file (kw :: more) = .ok ⟨([], s), [], t :: rest⟩) :
      reading scope .file (kw :: more) = reading scope .file (t :: rest) := by
    rw [reading_of_round hround, reading_semicolon (.inr hs) ht, reading_semicolon (.inl rfl) ht]
  cases h with
  | semicolon ht => exact reading_semicolon (.inl rfl) ht _
  | func hkw hreceiver hdeclared hblank hbody ht =>
    obtain ⟨isMethod, hround⟩ := round_func_eq scope hkw hreceiver hdeclared (hends ht _)
    have hnone := hround _ hbody
    simp only [hblank, decide_true, Bool.or_true, Bool.true_or, if_true] at hnone
    exact hended (.inl rfl) ht hnone
  | @values kw t _ rest hkw hspec ht =>
    obtain ⟨hnames, hblank, hbody⟩ := hspec
    obtain ⟨kind, hround⟩ := round_values_eq scope hkw
    refine hended (.inl rfl) ht ((hround _).trans ?_)
    have hhead := valueHead_eq kind hnames hbody (hends ht rest)
    obtain ⟨t, more, rfl, ht⟩ := cons_of_names hnames
    rw [declaredBy_blank hblank, List.cons_append] at hhead
    rw [List.append_assoc, List.cons_append, values, bind_of_ok (accept_of_ne (by simp [nextKind, ht]))]
    exact bind_of_ok hhead
  | group hkw hopening hclosing ht =>
    obtain ⟨kind, hround⟩ := round_values_eq scope hkw
    refine hended (.inr rfl) ht ((hround _).trans ?_)
    rw [values_leftParen hopening, valueGroup_rightParen hclosing]
  | inGroup hkw hopening h =>
    obtain ⟨kind, hround⟩ := round_values_eq scope hkw
    rw [reading_cons, reading_cons]
    refine bind_congr_first ?_
    rw [hround, hround, values_leftParen hopening, values_leftParen hopening, valueGroup_adds h]

end

/-! ### Files with blank declarations -/

section

variable {path : String} {tokens tokens' : List Token}

/-- **Adding a blank declaration to the tokens of a file**, behind a beginning that could be a file by
itself. -/
inductive AddsBlank (path : String) : List Token → List Token → Prop
  | intro {before behind behind' : List Token} (hcomplete : IsComplete path before)
    (hlate : nextKind behind = some (.keyword .importKw) → LateImport before) (h : Adds behind behind') :
    AddsBlank path (before ++ behind) (before ++ behind')

/-- **One blank declaration does not change what a file says.** -/
theorem contents_addsBlank (h : AddsBlank path tokens tokens') :
    contents path tokens' = contents path tokens ∧
      (packageClause tokens').map Parsed.value = (packageClause tokens).map Parsed.value := by
  obtain ⟨hcomplete, hlate, hadds⟩ := h
  obtain ⟨package, imports, ds, references, hread⟩ := contents_of_isComplete hcomplete
  obtain ⟨⟨clause, hclause, hvalue⟩, hcontents⟩ := hread _ hlate
  obtain ⟨⟨clause', hclause', hvalue'⟩, hcontents'⟩ := hread _ fun h => hlate (hadds.nextKind_import h)
  refine ⟨?_, ?_⟩
  · rw [hcontents', hcontents, reading_adds hadds]
  · rw [hclause', hclause, Except.map, Except.map, hvalue', hvalue]

/-- **Any number of blank declarations does not change what a file says.** -/
theorem contents_addsBlanks (h : Relation.ReflTransGen (AddsBlank path) tokens tokens') :
    contents path tokens' = contents path tokens ∧
      (packageClause tokens').map Parsed.value = (packageClause tokens).map Parsed.value := by
  induction h with
  | refl => exact ⟨rfl, rfl⟩
  | tail _ hstep ih =>
    obtain ⟨hcontents, hclause⟩ := contents_addsBlank hstep
    exact ⟨hcontents.trans ih.1, hclause.trans ih.2⟩

end

/-! ### Blank types

The reader of types has no test for the blank name. This is the difference to the three other kinds, and
what follows from it is that any blank name of a package is the name of a type. -/

section

variable {scope : Scope} {s : Stage} {tokens : List Token}

theorem isType_of_declaredType {parsed : Parsed Declaration} (h : declaredType scope tokens = .ok parsed) :
    parsed.value.object.kind.isType = true := by
  obtain ⟨t, behind, kind, rfl, -, hkind, rfl⟩ := declaredType_eq_ok_iff.1 h
  rcases typeKind_eq_ok_iff.1 hkind with ⟨-, htype⟩ | ⟨_, _, -, rfl, -⟩
  · obtain ⟨type, isAlias, hvalue⟩ := typeDefinition_eq_ok htype
    exact congrArg ObjectKind.isType hvalue
  · rfl

/-- Only types declare blank names, in every round. -/
theorem isType_of_round {first : Parsed (List Declaration × Stage)} (h : round scope s tokens = .ok first) :
    ∀ d ∈ first.value.1, d.object.name = "_" → d.object.kind.isType = true := by
  intro d hd hblank
  cases introduces_of_round h hd with
  | type _ hmade | grouped hmade => exact isType_of_declaredType hmade
  | func hhead hd => exact absurd hblank (declared_of_funcHead hhead d hd).2
  | values _ hvalues hd => exact absurd hblank (declared_of_values hvalues d hd).2

/-- What holds of all that is declared in a round holds of all declarations. -/
theorem forall_of_rounds {P : Declaration → Prop} {parsed : Parsed (List Declaration)}
    (hround : ∀ s tokens first, round scope s tokens = .ok first → ∀ d ∈ first.value.1, P d)
    (h : reading scope s tokens = .ok parsed) : ∀ d ∈ parsed.value, P d := by
  induction hn : tokens.length using Nat.strong_induction_on generalizing s tokens parsed with
  | _ n ih =>
    subst hn
    rcases reading_eq_ok_iff.1 h with ⟨-, -, rfl⟩ | ⟨first, more, hfirst, hmore, rfl⟩
    · exact fun _ hd => by cases hd
    · exact List.forall_mem_append.2 ⟨hround _ _ _ hfirst, ih _ (round_length hfirst) hmore rfl⟩

/-- **A blank name is declared by types only.** -/
theorem isType_of_blank {file text path : String} {f : File} (h : parseFile file text path = .ok f) :
    ∀ d ∈ f.declarations, d.object.name = "_" → d.object.kind.isType = true := by
  obtain ⟨ts, c, references, rest, -, hread, rfl⟩ := parseFile_eq_ok.1 h
  rw [contents_eq] at hread
  obtain ⟨top, _, -, hbelow, heq⟩ := bind_eq_ok.1 hread
  obtain ⟨all, hall, rfl⟩ := bind_pure_eq_ok.1 hbelow
  cases heq
  exact forall_of_rounds (fun _ _ _ => isType_of_round) hall

end

end Multicast.Syntax

namespace Multicast

open Source Syntax

/-! ### Packages with blank declarations -/

/-- **Adding blank declarations to a text** of the package at a path. In a text without tokens they can only
stand between its pieces. -/
inductive AddsBlanks (path : String) : String → String → Prop
  | reads {text text' : String} {ts ts' : Tokens} {tokens : List Token} (hts : tokenize text = .ok ts)
    (hts' : tokenize text' = .ok ts') (hadds : Relation.ReflTransGen (AddsBlank path) ts.list tokens)
    (hsame : SameWords ts'.list tokens) : AddsBlanks path text text'
  | broken {text text' : String} {flaw : Flaw} (hflaw : tokenize text = .error flaw)
    (hpieces : (split text.toList).1.Sublist (split text'.toList).1)
    (hleft : (split text'.toList).2 = (split text.toList).2) : AddsBlanks path text text'

/-- **Adding blank declarations to a source.** Its build constraints are not touched, and if these exclude it
there is nothing else to say of it. -/
structure SourceText.WithBlanks (path : String) (s s' : SourceText) : Prop where
  ignored : isIgnored s'.text = isIgnored s.text
  adds : isIgnored s.text = false → AddsBlanks path s.text s'.text

/-- What is broken stays broken if pieces are added. -/
theorem tokenize_error_of_sublist {text text' : String} {flaw : Flaw} (hflaw : tokenize text = .error flaw)
    (hpieces : (split text.toList).1.Sublist (split text'.toList).1)
    (hleft : (split text'.toList).2 = (split text.toList).2) : ∃ flaw', tokenize text' = .error flaw' := by
  cases hts' : tokenize text' with
  | error flaw' => exact ⟨flaw', rfl⟩
  | ok ts' =>
    obtain ⟨ps', hsplit', hwhole, -⟩ := tokenize_eq_ok_iff.1 hts'
    obtain ⟨ps, left, hsplit⟩ : ∃ ps left, split text.toList = (ps, left) := ⟨_, _, rfl⟩
    rw [hsplit, hsplit'] at hpieces hleft
    obtain rfl : left = [] := hleft.symm
    have hok := tokenize_eq_ok_iff.2 ⟨ps, hsplit, fun q hq => hwhole q (hpieces.subset hq), rfl⟩
    rw [hok] at hflaw
    cases hflaw

/-- **Blank declarations do not change what a source says.** -/
theorem SourceText.WithBlanks.saysSame {path : String} {s s' : SourceText} (h : s.WithBlanks path s') :
    s.SaysSame path s' := by
  suffices hread : isIgnored s.text = false →
      BothRead Eq (parsePackageName s.name s.text) (parsePackageName s'.name s'.text) ∧
        BothRead File.SaysSame (parseFile s.name s.text path) (parseFile s'.name s'.text path) from
    ⟨h.ignored, fun hcounts => (hread hcounts).1, fun hcounts => (hread hcounts).2⟩
  intro hcounts
  cases h.adds hcounts with
  | reads hts hts' hadds hsame =>
    obtain ⟨hcontents, hclause⟩ := contents_addsBlanks hadds
    exact ⟨bothRead_parsePackageName hts hts' hsame hclause, bothRead_parseFile hts hts' hsame hcontents⟩
  | broken hflaw hpieces hleft =>
    obtain ⟨flaw', hflaw'⟩ := tokenize_error_of_sublist hflaw hpieces hleft
    have hfails {α : Type} (p : Parser α) {text : String} {flaw : Flaw} (file : String)
        (h : tokenize text = .error flaw) : readText p file text = .error (flaw.inFile file) := by
      rw [readText, h]
    simp only [parsePackageName, parseFile, hfails _ _ hflaw, hfails _ _ hflaw']
    exact ⟨.error .., .error ..⟩

/-- **Blank functions, variables and constants do not change a package; blank types do.** Any number of
functions, variables and constants named `_` may be added to the sources: the same package is loaded, or
loading fails for the same kind of reason. So `_` is found in a package that loads exactly if it is declared
in one of the files, it is a type then, and there is no other declaration of it in any of the files. -/
theorem ofSources_addsBlanks {path : String} :
    (∀ sources others, List.Forall₂ (SourceText.WithBlanks path) sources others →
      Agree (Package.ofSources path sources) (Package.ofSources path others)) ∧
    ∀ sources pkg, Package.ofSources path sources = .ok pkg → ∃ files,
      ((sources.filter fun s => !isIgnored s.text).map fun s => parseFile s.name s.text path) =
        files.map Except.ok ∧
      (∀ object, pkg.lookup? "_" = some object ↔ ∃ file ∈ files, ∃ d ∈ file.declarations,
        d.object.name = "_" ∧ object = resolvedObject path (declarationsOf files) file d.object) ∧
      (∀ d ∈ declarationsOf files, d.object.name = "_" → d.object.kind.isType = true) ∧
      ((declarationsOf files).filter (·.object.name = "_")).length ≤ 1 := by
  refine ⟨fun sources others h => ?_, fun sources pkg h => ?_⟩
  · exact ofSourcesIn_agree_of_saysSame (h.imp fun _ _ hadds => hadds.saysSame)
  · obtain ⟨name, files, hloads, rfl⟩ := Package.ofSources_eq_ok.1 h
    refine ⟨files, hloads.read, fun object => lookup?_linkFiles hloads.nodup, fun d hd => ?_, ?_⟩
    · obtain ⟨file, hfile, hd⟩ := List.mem_flatMap.1 hd
      exact hloads.of_sources (fun _ _ _ _ hread => isType_of_blank hread) file hfile d hd
    · have honce := List.nodup_iff_count_le_one.1 hloads.nodup "_"
      rw [List.count, List.countP_map, List.countP_eq_length_filter] at honce
      exact honce

/-- A function. -/
def pierText : String :=
  "package pier\nfunc Moor() \x7b\x7d\n"

/-- The same text with a blank function and a blank variable. -/
def pierOther : String :=
  "package pier\nfunc _() \x7b\x7d\nvar _ = Moor()\nfunc Moor() \x7b\x7d\n"

/-- A blank function, written anywhere. -/
def pierFunc : List Token :=
  [⟨.keyword .funcKw, "func", .start⟩, ⟨.identifier, "_", .start⟩, ⟨.leftParen, "(", .start⟩,
    ⟨.rightParen, ")", .start⟩, ⟨.leftBrace, "\x7b", .start⟩, ⟨.rightBrace, "\x7d", .start⟩, .lineEnd .start]

/-- A blank variable, written anywhere. -/
def pierVar : List Token :=
  [⟨.keyword .varKw, "var", .start⟩, ⟨.identifier, "_", .start⟩, ⟨.assign, "=", .start⟩,
    ⟨.identifier, "Moor", .start⟩, ⟨.leftParen, "(", .start⟩, ⟨.rightParen, ")", .start⟩, .lineEnd .start]

theorem adds_pierFunc (rest : List Token) : Adds (.lineEnd .start :: rest) (pierFunc ++ rest) :=
  have hbody : IsBody false ((pierFunc.drop 2).take 4) := by decide
  .func rfl (.inl rfl) rfl rfl hbody rfl

theorem adds_pierVar (rest : List Token) : Adds (.lineEnd .start :: rest) (pierVar ++ rest) :=
  have hspec : BlankSpec ((pierVar.drop 1).take 1 ++ (pierVar.drop 2).take 4) :=
    .intro (.last "_") (by decide) (by decide)
  .values (.inl rfl) hspec rfl

/-- A text with a function loads as it does with a blank function and a blank variable. -/
theorem ofSources_addsBlanks_pier : ∃ pkg,
    Package.ofSources "m/pier" [⟨"pier.go", pierText⟩] = .ok pkg ∧
    List.Forall₂ (SourceText.WithBlanks "m/pier") [⟨"pier.go", pierText⟩] [⟨"pier.go", pierOther⟩] ∧
    Package.ofSources "m/pier" [⟨"pier.go", pierOther⟩] = .ok pkg ∧ pkg.lookup? "_" = none := by
  have hchars : tokenize pierText = _ := tokenize_ofList _
  have hother : tokenize pierOther = _ := tokenize_ofList _
  have hcheck : (tokenize pierText).toOption.any (fun ts => (tokenize pierOther).toOption.any fun ts' =>
      (header (ts.list.take 3)).toOption.any fun top => top.rest = [] ∧
        (ts.list.take 3).getLast?.all (fun t => !t.endsStatement) ∧
        nextKind (ts.list.drop 3) = some (.keyword .funcKw) ∧
        SameWords ts'.list (ts.list.take 3 ++ (pierFunc ++ (pierVar ++ ts.list.drop 3)))) = true := by
    rw [hchars, hother]
    decide +kernel
  obtain ⟨ts, hts, hcheck⟩ := exists_ok_of_any hcheck
  obtain ⟨ts', hts', hcheck⟩ := exists_ok_of_any hcheck
  obtain ⟨⟨_, references, _⟩, hheader, hcheck⟩ := exists_ok_of_any hcheck
  obtain ⟨rfl, hlast, hnext, hsame⟩ := of_decide_eq_true hcheck
  obtain ⟨pkg, hok, hnone⟩ : ∃ pkg, Package.ofSources "m/pier" [⟨"pier.go", pierText⟩] = .ok pkg ∧
      (pkg.lookup? "_").isNone = true :=
    Package.exists_ofSources_singleton String.toList_ofList (by decide +kernel)
  have hcomplete : IsComplete "m/pier" (ts.list.take 3) :=
    ⟨by simpa [Finished, Option.all_eq_true] using hlast, [], _, [], hheader, .here⟩
  -- every declaration is added behind the header, with a semicolon of its own
  have hstep {us vs : List Token} (hus : nextKind us ≠ some (.keyword .importKw)) (h : Adds us vs) :
      AddsBlank "m/pier" (ts.list.take 3 ++ us) (ts.list.take 3 ++ vs) :=
    .intro hcomplete (fun himport => absurd himport hus) h
  have hadds : Relation.ReflTransGen (AddsBlank "m/pier") (ts.list.take 3 ++ ts.list.drop 3)
      (ts.list.take 3 ++ (pierFunc ++ (pierVar ++ ts.list.drop 3))) :=
    .tail (.tail (.tail (.tail .refl (hstep (by simp [hnext]) (.semicolon rfl)))
      (hstep (by simp [nextKind, Token.lineEnd]) (adds_pierVar _)))
      (hstep (by simp [nextKind, pierVar]) (.semicolon rfl)))
      (hstep (by simp [nextKind, Token.lineEnd]) (adds_pierFunc _))
  rw [List.take_append_drop] at hadds
  have hsources : List.Forall₂ (SourceText.WithBlanks "m/pier") [⟨"pier.go", pierText⟩]
      [⟨"pier.go", pierOther⟩] :=
    .cons ⟨by decide +kernel, fun _ => .reads hts hts' hadds hsame⟩ .nil
  have hagree := ofSources_addsBlanks.1 _ _ hsources
  rw [hok] at hagree
  generalize hloaded' : Package.ofSources "m/pier" [⟨"pier.go", pierOther⟩] = loaded at hagree
  cases hagree
  exact ⟨pkg, hok, hsources, rfl, by simpa using hnone⟩

/-- A blank type. -/
def slipText : String :=
  "package slip\ntype _ int\n"

/-- Two of them. -/
def slipTwice : String :=
  "package slip\ntype _ int\ntype _ string\n"

/-- A blank type is an object of its package, and a second one is a redeclaration. -/
theorem not_agree_slip : ∃ pkg other,
    Package.ofSources "m/slip" [⟨"slip.go", "package slip\n"⟩] = .ok pkg ∧ pkg.lookup? "_" = none ∧
    Package.ofSources "m/slip" [⟨"slip.go", slipText⟩] = .ok other ∧ (other.lookup? "_").isSome = true ∧
    Package.ofSources "m/slip" [⟨"slip.go", slipTwice⟩] =
      .error (.source [⟨"slip.go", ⟨3, 6⟩, .redeclared "_"⟩]) ∧
    ¬ Agree (Package.ofSources "m/slip" [⟨"slip.go", "package slip\n"⟩])
      (Package.ofSources "m/slip" [⟨"slip.go", slipText⟩]) ∧
    ¬ Agree (Package.ofSources "m/slip" [⟨"slip.go", "package slip\n"⟩])
      (Package.ofSources "m/slip" [⟨"slip.go", slipTwice⟩]) := by
  have hrefused : (match Package.ofSources "m/slip" [⟨"slip.go", slipTwice⟩] with
      | .ok _ => none
      | .error e => some e) = some (.source [⟨"slip.go", ⟨3, 6⟩, .redeclared "_"⟩]) := by
    decide +kernel
  obtain ⟨pkg, hpkg, hnone⟩ : ∃ pkg,
      Package.ofSources "m/slip" [⟨"slip.go", "package slip\n"⟩] = .ok pkg ∧
        (pkg.lookup? "_").isNone = true :=
    Package.exists_ofSources_singleton String.toList_ofList (by decide +kernel)
  obtain ⟨other, hother, hsome⟩ : ∃ other,
      Package.ofSources "m/slip" [⟨"slip.go", slipText⟩] = .ok other ∧
        (other.lookup? "_").isSome = true :=
    Package.exists_ofSources_singleton String.toList_ofList (by decide +kernel)
  have htwice : Package.ofSources "m/slip" [⟨"slip.go", slipTwice⟩] =
      .error (.source [⟨"slip.go", ⟨3, 6⟩, .redeclared "_"⟩]) := by
    generalize Package.ofSources "m/slip" [⟨"slip.go", slipTwice⟩] = loaded at hrefused
    cases loaded with
    | ok _ => cases hrefused
    | error e => exact congrArg Except.error (Option.some.inj hrefused)
  refine ⟨pkg, other, hpkg, by simpa using hnone, hother, hsome, htwice, fun hagree => ?_, fun hagree => ?_⟩
  · rw [hpkg, hother] at hagree
    cases hagree
    rw [Option.isNone_iff_eq_none.1 hnone] at hsome
    cases hsome
  · rw [hpkg, htwice] at hagree
    cases hagree

end Multicast
