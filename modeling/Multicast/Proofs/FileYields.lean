import Mathlib.Data.List.DropRight
import Multicast.Proofs.Yields
import Multicast.Syntax.File

/-!
# What is known of a file that was read

A file that was read has a package name, imports whose names are guessed from their paths, and
declarations under names. Its types are well-formed, and its references are the own declared types
that its types mention (`File.Sound`). A declaration that was skipped, since its type cannot be
described, has neither types nor references.

## From types to files

What is known of types is `Scope.Builds`, and it is carried through the readers of declarations. A type
that is read builds what it says. One that is skipped is recorded with a reason and without a type, and
builds nothing; its attempt may have come by references, but these are dropped with it.

The header reports nothing. All that has to be known of it is that imports are sound, with the name that a
path suggests if none is given, and that stripping the quotes of a path once is enough.
-/

namespace Multicast

open Source Syntax Multicast.Syntax.Parser

/-- The type that an object is declared as, if it can be described. -/
def ObjectKind.types : ObjectKind → List GoType
  | .type declared _ => [declared]
  | .unsupported _ | .func | .var | .const => []

namespace Syntax

/-- The types that a file declares. -/
def File.types (file : File) : List GoType :=
  file.declarations.flatMap (·.object.kind.types)

/-- What a file of the package at a path lets its names mean. -/
def File.scope (path : String) (file : File) : Scope :=
  ⟨⟨path, file.package⟩, file.imports⟩

/-- An import of a path, under the name that the path suggests. There are no quotes around the
path. -/
structure Import.Sound (i : Import) : Prop where
  package : i.package = .ofPath i.package.path
  path : i.package.path ≠ ""
  bare : importedPath i.package.path = i.package.path

/-- **What reading a file makes sure of.** -/
structure File.Sound (path : String) (file : File) : Prop where
  package : Kind.identifier.Writes file.package ∧ file.package ≠ "_"
  imports : ∀ i ∈ file.imports, i.Sound
  names : ∀ d ∈ file.declarations, Kind.identifier.Writes d.object.name
  types : (file.scope path).Builds [] file.types file.references

/-! ### Quotes around a path

A path is stripped of all quotes around it, so there is nothing left to strip. -/

theorem strip_eq (outer : Char → Bool) (text : List Char) :
    Text.strip outer text = (text.dropWhile outer).rdropWhile outer := rfl

/-- What has been stripped has nothing left to strip. -/
theorem strip_strip (outer : Char → Bool) (text : List Char) :
    Text.strip outer (Text.strip outer text) = Text.strip outer text := by
  suffices hfront : (Text.strip outer text).dropWhile outer = Text.strip outer text by
    rw [strip_eq outer (Text.strip outer text), hfront, strip_eq, List.rdropWhile_idempotent]
  -- what is left at the front was at the front before anything was dropped at the end
  rcases hstrip : Text.strip outer text with _ | ⟨c, cs⟩
  · rfl
  · obtain ⟨more, hmore⟩ : c :: cs <+: text.dropWhile outer := hstrip ▸ List.rdropWhile_prefix ..
    have hc := List.head?_dropWhile_not outer text
    rw [← hmore, List.cons_append, List.head?_cons] at hc
    exact List.dropWhile_cons_of_neg (by simpa using hc)

/-- An import path has no quotes left to strip. -/
theorem importedPath_importedPath (literal : String) :
    importedPath (importedPath literal) = importedPath literal := by
  rw [importedPath, importedPath, String.toList_ofList, strip_strip]

/-- Quotes around a path are not part of it. -/
theorem importedPath_quoted (path : String) :
    importedPath ("\"" ++ path ++ "\"") = importedPath path := by
  have hquoted : ("\"" ++ path ++ "\"").toList = '"' :: (path.toList ++ ['"']) := by simp
  rw [importedPath, importedPath, hquoted, strip_eq, strip_eq,
    List.dropWhile_cons_of_pos (by simp), List.dropWhile_append]
  split
  next hall => simp [List.isEmpty_iff.1 hall]
  next => rw [List.rdropWhile_concat_pos (fun c => c = '"' || c = rawQuote) _ '"' (by simp)]

/-! ### Ends and groups -/

/-- What ends a spec is read without a report. -/
theorem quiet_specEnd (grouped : Bool) : (specEnd grouped).Quiet fun _ => True := by
  refine .after (quiet_peek 0) fun next _ => ?_
  split
  · exact quiet_skip
  · cases grouped with
    | true => exact .pure ⟨rfl, trivial⟩
    | false => exact .fails fun _ => ⟨_, rfl⟩
  · exact .pure ⟨rfl, trivial⟩
  · exact .fails fun _ => ⟨_, rfl⟩

section

variable {α : Type} {spec : Bool → Parser α} {one : α → List Reference → Prop}
  {all : List α → List Reference → Prop}

/-- What specs yield one after the other. -/
theorem yields_group (hspec : ∀ grouped, (spec grouped).Yields one) (hnil : all [] [])
    (hcons : ∀ a as references more, one a references → all as more →
      all (a :: as) (references ++ more)) : (group spec).Yields all := by
  have hrest (n : Nat) : (groupRest (spec true) n).Yields all := by
    induction n with
    | zero => exact .fails fun _ => ⟨_, rfl⟩
    | succ n ih =>
      refine .after quiet_skipSemicolons fun _ _ => .after (quiet_accept _) fun closed _ => ?_
      split
      · exact .pure hnil
      · refine .after (quiet_peek 0) fun next _ => .check (fun _ => ⟨_, rfl⟩) ?_
        refine .bind (hspec true) fun first references hfirst => ?_
        exact ih.map fun others more hothers => hcons _ _ _ _ hfirst hothers
  refine .after (quiet_accept _) fun opened _ => ?_
  split
  · refine .bind (.bounded hrest) fun specs references hspecs => ?_
    refine .after (quiet_specEnd false) fun _ _ => .pure ?_
    rwa [List.append_nil]
  · refine (hspec false).map fun only references honly => ?_
    have hone := hcons only [] references [] honly hnil
    rwa [List.append_nil] at hone

end

/-! ### Package clause and imports -/

/-- The name of a package is an identifier, and not the blank one. -/
theorem quiet_packageClause :
    packageClause.Quiet fun package => Kind.identifier.Writes package ∧ package ≠ "_" := by
  refine .after quiet_skipSemicolons fun _ _ => .after (quiet_expect _ (by decide)) fun _ _ => ?_
  refine .after quiet_name fun package hpackage => ?_
  dsimp only
  split
  · exact .fails fun _ => ⟨_, rfl⟩
  next hblank => exact .after (quiet_specEnd false) fun _ _ => .pure ⟨rfl, hpackage, hblank⟩

/-- An alias is read without a report. -/
theorem quiet_importAlias : importAlias.Quiet fun _ => True := by
  intro tokens parsed _ hok
  rcases tokens with _ | ⟨t, rest⟩
  · cases hok
    exact ⟨List.suffix_refl _, rfl, trivial⟩
  · rw [importAlias] at hok
    split at hok
    next =>
      cases hok
      exact ⟨List.suffix_cons t rest, rfl, trivial⟩
    next =>
      cases hok
      exact ⟨List.suffix_refl _, rfl, trivial⟩

/-- An import is sound, with an alias or with the name that its path suggests. -/
theorem quiet_importSpec (grouped : Bool) : (importSpec grouped).Quiet Import.Sound := by
  refine .after quiet_importAlias fun written _ => ?_
  refine .after (quiet_expect _ (by decide)) fun literal _ => ?_
  dsimp only
  split
  · exact .fails fun _ => ⟨_, rfl⟩
  next hpath =>
    exact .after (quiet_specEnd grouped) fun _ _ =>
      .pure ⟨rfl, rfl, hpath, importedPath_importedPath literal.text⟩

/-- All imports of a file are sound. -/
theorem quiet_imports (n : Nat) : (imports n).Quiet fun is => ∀ i ∈ is, i.Sound := by
  induction n with
  | zero => exact .pure ⟨rfl, by simp⟩
  | succ n ih =>
    refine .after (quiet_accept _) fun more _ => ?_
    split
    · have hgroup : (group importSpec).Quiet fun is => ∀ i ∈ is, i.Sound := by
        refine yields_group quiet_importSpec ⟨rfl, by simp⟩ ?_
        rintro i is _ _ ⟨rfl, hi⟩ ⟨rfl, his⟩
        exact ⟨rfl, by simpa using ⟨hi, his⟩⟩
      refine .after hgroup fun first hfirst => .after ih fun others hothers => .pure ⟨rfl, ?_⟩
      exact fun i hi => (List.mem_append.1 hi).elim (hfirst i) (hothers i)
    · exact .pure ⟨rfl, by simp⟩

/-! ### Declarations

Declarations are appended, and so are their references. Both come in the order of the file. -/

/-- Counting delimiters leaves an end of the tokens. -/
theorem suffix_of_skipNested {depth : Nat} {tokens rest : List Token}
    (h : skipNested depth tokens = .ok rest) : rest <:+ tokens := by
  induction tokens generalizing depth with
  | nil =>
    cases depth <;> cases h
    exact List.suffix_refl _
  | cons t tokens ih =>
    have hcons := List.suffix_cons t tokens
    cases depth with
    | zero =>
      rw [skipNested] at h
      split at h
      · cases h
        exact List.suffix_refl _
      · exact (ih h).trans hcons
    | succ depth =>
      rw [skipNested] at h
      split at h
      · exact (ih h).trans hcons
      · split at h <;> exact (ih h).trans hcons

/-- What is skipped leaves no report. -/
theorem quiet_skipToEnd : skipToEnd.Quiet fun _ => True := by
  intro tokens parsed _ hok
  rw [skipToEnd] at hok
  cases hskip : skipNested 0 tokens with
  | error e =>
    rw [hskip] at hok
    cases hok
  | ok rest =>
    rw [hskip] at hok
    cases hok
    exact ⟨suffix_of_skipNested hskip, rfl, trivial⟩

theorem quiet_skipDeclaration : skipDeclaration.Quiet fun _ => True :=
  .after quiet_skipToEnd fun _ _ => .after (quiet_accept _) fun _ _ => .pure ⟨rfl, trivial⟩

/-- Counting parentheses leaves an end of the tokens. -/
theorem suffix_of_skipParens {depth : Nat} {tokens rest : List Token}
    (h : skipParens depth tokens = .ok rest) : rest <:+ tokens := by
  induction tokens generalizing depth with
  | nil => cases h
  | cons t tokens ih =>
    have hcons := List.suffix_cons t tokens
    rw [skipParens.eq_def] at h
    dsimp only at h
    split at h
    · exact (ih h).trans hcons
    · split at h
      · cases depth with
        | zero =>
          cases h
          exact hcons
        | succ depth => exact (ih h).trans hcons
      · exact (ih h).trans hcons

/-- A receiver is skipped without a report. -/
theorem quiet_receiver : receiver.Quiet fun _ => True := by
  intro tokens parsed _ hok
  rcases tokens with _ | ⟨t, rest⟩
  · cases hok
    exact ⟨List.suffix_refl _, rfl, trivial⟩
  · rw [receiver] at hok
    split at hok
    next =>
      cases hskip : skipParens 0 rest with
      | error e =>
        rw [hskip] at hok
        cases hok
      | ok behind =>
        rw [hskip] at hok
        cases hok
        exact ⟨(suffix_of_skipParens hskip).trans (List.suffix_cons t rest), rfl, trivial⟩
    next =>
      cases hok
      exact ⟨List.suffix_refl _, rfl, trivial⟩

/-- What declarations are like: they have names, and their types are built. -/
def Declared (scope : Scope) (ds : List Declaration) (references : List Reference) : Prop :=
  (∀ d ∈ ds, Kind.identifier.Writes d.object.name) ∧
    scope.Builds [] (ds.flatMap (·.object.kind.types)) references

/-- What two parts of a file declare and refer to, they do together. -/
theorem Declared.append {scope : Scope} {ds ds' : List Declaration}
    {references references' : List Reference} (h : Declared scope ds references)
    (h' : Declared scope ds' references') :
    Declared scope (ds ++ ds') (references ++ references') := by
  refine ⟨fun d hd => (List.mem_append.1 hd).elim (h.1 d) (h'.1 d), ?_⟩
  rw [List.flatMap_append]
  exact h.2.append h'.2

section

variable {scope : Scope}

theorem declared_nil : Declared scope [] [] :=
  ⟨by simp, .refl []⟩

/-- What a name declares has the references of its type, and has none if it was skipped. -/
theorem yields_typeKind :
    (typeKind scope).Yields fun kind references => scope.Builds [] kind.types references := by
  have hunsupported (reason : String) : (unsupported reason).Yields fun kind references =>
      scope.Builds [] kind.types references :=
    .after quiet_skipToEnd fun _ _ => .pure (.refl [])
  have hdefinition : (typeDefinition scope).Yields fun kind references =>
      scope.Builds [] kind.types references :=
    .after (quiet_accept _) fun isAlias _ => yields_typeExpr.map fun _ _ h => h
  intro tokens parsed hlexed hok
  rw [typeKind] at hok
  split at hok
  · exact hunsupported _ tokens parsed hlexed hok
  · split at hok
    next hread =>
      cases hok
      exact hdefinition tokens _ hlexed hread
    next e _ =>
      split at hok
      · exact hunsupported _ tokens parsed hlexed hok
      · cases hok

/-- The spec of a type declares one name. -/
theorem yields_typeSpec (grouped : Bool) :
    (typeSpec scope grouped).Yields fun d references => Declared scope [d] references := by
  refine .after quiet_name fun declared hdeclared => ?_
  refine .bind yields_typeKind fun kind references hkind => ?_
  refine .after (quiet_specEnd grouped) fun _ _ => .pure ?_
  rw [List.append_nil]
  exact ⟨by simpa using hdeclared, by simpa using hkind⟩

/-- An object that is not a type. -/
theorem declared_value (ts : List Token) {kind : ObjectKind} (hkind : kind.types = [])
    (hnames : ∀ t ∈ ts, Kind.identifier.Writes t.text) :
    Declared scope (ts.map fun t => ⟨⟨t.text, kind⟩, t.pos⟩) [] := by
  refine ⟨by simpa using hnames, .of_mem fun t => ?_⟩
  simp [hkind]

/-- A function declaration declares no types. -/
theorem yields_funcDeclaration : funcDeclaration.Yields (Declared scope) := by
  refine .after quiet_receiver fun isMethod _ => .after quiet_name fun declared hdeclared => ?_
  refine .after quiet_skipDeclaration fun _ _ => ?_
  split
  · exact .pure declared_nil
  · exact .pure (declared_value [declared] rfl (by simpa using hdeclared))

/-- A spec of values declares no types. -/
theorem yields_valueSpec {kind : ObjectKind} (hkind : kind.types = []) :
    (valueSpec kind).Yields (Declared scope) := by
  refine .after quiet_names fun declared hdeclared => ?_
  refine .after quiet_skipDeclaration fun _ _ => .pure (declared_value _ hkind fun t ht => ?_)
  exact hdeclared.2 t (List.mem_filter.1 ht).1

/-- The declarations of a file, with what they refer to. -/
theorem yields_declarations (n : Nat) : (declarations scope n).Yields (Declared scope) := by
  induction n with
  | zero => exact .pure declared_nil
  | succ n ih =>
    have hvalue {kind : ObjectKind} (hkind : kind.types = []) :
        (valueSpec kind).Yields (Declared scope) := yields_valueSpec hkind
    have hvalues {kind : ObjectKind} (hkind : kind.types = []) :
        (group fun _ => valueSpec kind).Yields fun dss references =>
          Declared scope dss.flatten references := by
      refine yields_group (fun _ => hvalue hkind) declared_nil ?_
      exact fun ds dss references more hds hdss => hds.append hdss
    have hnext {ds : List Declaration} {references : List Reference}
        (hds : Declared scope ds references) :
        Yields (declarations scope n >>= fun others => pure (ds ++ others)) fun all more =>
          Declared scope all (references ++ more) :=
      ih.map fun others more hothers => hds.append hothers
    refine .after (quiet_peek 0) fun next _ => ?_
    split
    · exact .pure declared_nil
    · exact .after quiet_skip fun _ _ => ih
    · refine .after quiet_skip fun _ _ => .bind ?_ fun ds references hds => hnext hds
      refine yields_group yields_typeSpec declared_nil ?_
      exact fun d ds references more hd hds => hd.append hds
    · refine .after quiet_skip fun _ _ => ?_
      exact .bind yields_funcDeclaration fun ds references hds => hnext hds
    · refine .after quiet_skip fun _ _ => ?_
      exact .bind (hvalues rfl) fun dss references hdss => hnext hdss
    · refine .after quiet_skip fun _ _ => ?_
      exact .bind (hvalues rfl) fun dss references hdss => hnext hdss
    · exact .fails fun _ => ⟨_, rfl⟩
    · exact .fails fun _ => ⟨_, rfl⟩

end

/-! ### Files -/

/-- To read a text is to read its tokens. -/
theorem readText_eq_ok {α : Type} {p : Parser α} {file text : String} {parsed : Parsed α} :
    readText p file text = .ok parsed ↔
      ∃ ts, tokenize text = .ok ts ∧ p ts.list = .ok parsed := by
  rw [readText]
  cases tokenize text with
  | error e => simp
  | ok ts =>
    simp only [Except.ok.injEq, exists_eq_left']
    cases p ts.list with
    | error e => simp
    | ok parsed => simp

/-- To parse a file is to read the contents of its tokens. -/
theorem parseFile_eq_ok {file text path : String} {f : File} :
    parseFile file text path = .ok f ↔ ∃ ts c references rest, tokenize text = .ok ts ∧
      contents path ts.list = .ok ⟨c, references, rest⟩ ∧
        f = ⟨file, c.package, c.imports, c.declarations, references⟩ := by
  rw [parseFile]
  constructor
  · intro h
    cases hread : readText (contents path) file text with
    | error e => rw [hread] at h; cases h
    | ok parsed =>
      rw [hread] at h
      obtain ⟨ts, hts, hparsed⟩ := readText_eq_ok.1 hread
      exact ⟨ts, parsed.value, parsed.references, parsed.rest, hts, hparsed,
        (Except.ok.inj h).symm⟩
  · rintro ⟨ts, c, references, rest, hts, hparsed, rfl⟩
    rw [readText_eq_ok.2 ⟨ts, hts, hparsed⟩]
    rfl

/-- **What is read of a file is sound**, whatever its name. -/
theorem yields_contents (path : String) :
    (contents path).Yields fun c references => ∀ name,
      File.Sound path ⟨name, c.package, c.imports, c.declarations, references⟩ := by
  refine .after quiet_packageClause fun package hpackage => ?_
  refine .after (.bounded quiet_imports) fun is his => ?_
  refine (Yields.bounded yields_declarations).map fun ds references hds name => ?_
  exact ⟨hpackage, his, hds.1, hds.2⟩

/-- **A file that is read is sound.** -/
theorem sound_of_parseFile {file text path : String} {f : File}
    (h : parseFile file text path = .ok f) : f.Sound path := by
  obtain ⟨ts, c, references, rest, hts, hcontents, rfl⟩ := parseFile_eq_ok.1 h
  exact (yields_contents path ts.list _ (fun t => isLexed_of_tokenize hts) hcontents).2 file

/-- The package clause alone is read as in the file. -/
theorem parsePackageName_of_parseFile {file text path : String} {f : File}
    (h : parseFile file text path = .ok f) : parsePackageName file text = .ok f.package := by
  obtain ⟨ts, c, references, rest, hts, hcontents, rfl⟩ := parseFile_eq_ok.1 h
  obtain ⟨clause, _, hclause, hbehind, hall⟩ := bind_eq_ok.1 hcontents
  obtain ⟨imported, _, -, hdeclared, rfl⟩ := bind_eq_ok.1 hbehind
  obtain ⟨declared, -, rfl⟩ := bind_pure_eq_ok.1 hdeclared
  obtain rfl := congrArg Parsed.value hall
  rw [parsePackageName, readText_eq_ok.2 ⟨ts, hts, hclause⟩]
  rfl

end Syntax

end Multicast
