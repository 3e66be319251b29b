import Multicast.Proofs.FileYields
import Multicast.Proofs.ReadBack

/-!
# What files are read as

The parts of a file in words: a package clause, an import block, declarations of types, and methods.
Behind each of them a line ends. Of a method only its delimiters matter, since what stands behind its
name is skipped; `nest` counts how many are open.

## What the words do not say

A reader of a file is taken through its words from left to right, with what follows them left open, as it
is done for types (`Multicast.Proofs.Reads`). Two places need more than the next word. A type may be
generic, which is found out by looking at two tokens behind its name; so the words of a declared type are
asked not to begin so. And a method is skipped by counting, so that nothing of its words matters but their
kinds.

The statement on a whole file, `reports_contents`, is given the declarations as one property of words
(`Declares`), to which types and methods are added in front.
-/

namespace Multicast.Syntax

open Source Multicast.Syntax.Parser

/-! ### Package clause and imports -/

section

variable {α : Type} {follow : Option Kind → Prop}

theorem reports_specEnd (grouped : Bool) :
    (specEnd grouped).Reports [.lineEnd] (fun _ names => names = []) follow := by
  refine .peek fun _ _ => ?_
  intro tokens rest htokens _
  obtain ⟨t, ts, rfl, -, hts⟩ := cons_of_map_word htokens
  obtain rfl := List.map_eq_nil_iff.1 hts
  exact ⟨(), [], rfl, rfl⟩

theorem reports_packageClause {name : String} (hblank : name ≠ "_") :
    packageClause.Reports [⟨.keyword .packageKw, "package"⟩, ⟨.identifier, name⟩, .lineEnd]
      (fun package names => package = name ∧ names = []) follow := by
  refine .skipSemicolons (by simp) <| .expect rfl fun _ _ => .expect rfl fun package hpackage => ?_
  have hname : package.text = name := congrArg Word.text hpackage
  dsimp only
  rw [hname, if_neg hblank]
  refine (reports_specEnd false).map ?_
  rintro _ _ rfl
  exact .pure ⟨rfl, rfl⟩

/-- A path in quotes. -/
def quoted (path : String) : String :=
  "\"" ++ path ++ "\""

/-- Import paths that can be written in quotes: without a quote, backslash or newline, and without
quotes of raw strings around them. -/
structure Importable (path : String) : Prop where
  plain : ∀ c ∈ path.toList, c ≠ '"' ∧ c ≠ '\\' ∧ c ≠ '\n'
  bare : importedPath path = path

theorem Importable.of_all {path : String}
    (hplain : (path.toList.all fun c => c != '"' && c != '\\' && c != '\n') = true)
    (hbare : importedPath path = path) : Importable path :=
  ⟨fun c hc => by simpa [and_assoc] using List.all_eq_true.1 hplain c hc, hbare⟩

/-- The import of a path without a name in front of it. -/
def plainImport (path : String) : Import :=
  ⟨none, .ofPath path⟩

theorem reports_importSpec {path : String} (h : Importable path ∧ path ≠ "") (grouped : Bool) :
    (importSpec grouped).Reports [⟨.string, quoted path⟩, .lineEnd]
      (fun i names => i = plainImport path ∧ names = []) follow := by
  have halias : importAlias.Reports [] (fun written names => written = none ∧ names = [])
      (· = some .string) := by
    intro tokens rest htokens hrest
    obtain rfl := List.map_eq_nil_iff.1 htokens
    obtain ⟨t, ts, rfl, ht⟩ := exists_cons_of_nextKind hrest
    exact ⟨none, [], by simp [importAlias, ht], rfl, rfl⟩
  rw [← List.nil_append (_ :: _)]
  refine halias.bind (fun _ _ => rfl) ?_
  rintro _ _ ⟨rfl, rfl⟩
  refine .expect rfl fun literal hliteral => ?_
  have hpath : importedPath literal.text = path := by
    rw [show literal.text = quoted path from congrArg Word.text hliteral, quoted,
      importedPath_quoted, h.1.bare]
  dsimp only
  rw [hpath, if_neg h.2]
  refine (reports_specEnd grouped).map ?_
  rintro _ _ rfl
  exact .pure ⟨rfl, rfl⟩

theorem reports_groupRest {paths : List String} (h : ∀ path ∈ paths, Importable path ∧ path ≠ "")
    {n : Nat} (hn : paths.length < n) :
    (groupRest (importSpec true) n).Reports
      (paths.flatMap (fun path => [⟨.string, quoted path⟩, .lineEnd]) ++ [⟨.rightParen, ")"⟩])
      (fun is names => is = paths.map plainImport ∧ names = []) follow := by
  induction paths generalizing n with
  | nil =>
    obtain ⟨n, rfl⟩ := Nat.exists_eq_succ_of_ne_zero (Nat.ne_zero_of_lt hn)
    exact .skipSemicolons (by simp) <| .accept_eq rfl <| .pure ⟨rfl, rfl⟩
  | cons path paths ih =>
    obtain ⟨n, rfl⟩ := Nat.exists_eq_succ_of_ne_zero (Nat.ne_zero_of_lt hn)
    obtain ⟨hpath, hpaths⟩ := List.forall_mem_cons.1 h
    refine .skipSemicolons (by simp) <| .accept_ne (by simp) <| .peek fun _ _ => ?_
    rw [List.flatMap_cons, List.append_assoc]
    have hspec : (importSpec true).Reports _ _ fun _ => True := reports_importSpec hpath true
    refine hspec.bind (fun _ _ => trivial) ?_
    rintro _ _ ⟨rfl, rfl⟩
    refine (ih hpaths (Nat.lt_of_succ_lt_succ hn)).map ?_
    rintro _ _ ⟨rfl, rfl⟩
    exact .pure ⟨rfl, rfl⟩

/-- The words of an import block. -/
def importWords (imports : List String) : List Word :=
  if imports.isEmpty then []
  else (⟨.keyword .importKw, "import"⟩ : Word) :: (⟨.leftParen, "("⟩ : Word) ::
    (imports.flatMap (fun path => [(⟨.string, quoted path⟩ : Word), .lineEnd]) ++
      [(⟨.rightParen, ")"⟩ : Word)]) ++ [Word.lineEnd]

/-- **An import block is read** if no other import follows. -/
theorem reports_imports {paths : List String}
    (h : ∀ path ∈ paths, Importable path ∧ path ≠ "") :
    (bounded imports).Reports (importWords paths)
      (fun is names => is = paths.map plainImport ∧ names = [])
      (· ≠ some (.keyword .importKw)) := by
  -- imports end where no other import follows
  have hnone (n : Nat) : (imports n).Reports [] (fun is names => is = [] ∧ names = [])
      (· ≠ some (.keyword .importKw)) := by
    cases n with
    | zero => exact .pure ⟨rfl, rfl⟩
    | succ n => exact .accept_ne (fun _ h => h) (.pure ⟨rfl, rfl⟩)
  refine .bounded fun n hn => ?_
  rw [importWords] at hn ⊢
  split
  next hempty =>
    rw [List.isEmpty_iff.1 hempty]
    exact hnone n
  next hempty =>
    rw [if_neg hempty] at hn
    obtain ⟨n, rfl⟩ := Nat.exists_eq_succ_of_ne_zero (Nat.ne_zero_of_lt hn)
    refine .accept_eq rfl ?_
    have hgroup : (group importSpec).Reports
        (⟨.leftParen, "("⟩ :: (paths.flatMap (fun path => [⟨.string, quoted path⟩, .lineEnd]) ++
          [⟨.rightParen, ")"⟩]) ++ [.lineEnd])
        (fun is names => is = paths.map plainImport ∧ names = [])
        (· ≠ some (.keyword .importKw)) := by
      refine .accept_eq rfl ?_
      have hrest : (bounded (groupRest (importSpec true))).Reports _ _ fun _ => True :=
        .bounded fun n hn => reports_groupRest h (by simp at hn; omega)
      refine hrest.bind (fun _ _ => trivial) ?_
      rintro _ _ ⟨rfl, rfl⟩
      refine (reports_specEnd false).map ?_
      rintro _ _ rfl
      exact .pure ⟨rfl, rfl⟩
    refine hgroup.map ?_
    rintro _ _ ⟨rfl, rfl⟩
    refine (hnone n).map ?_
    rintro _ _ ⟨rfl, rfl⟩
    exact .pure ⟨List.append_nil _, rfl⟩

end

/-! ### Open delimiters

The count has no value where a declaration ends. So a value at the end of some words says that they are
all skipped, and this is all that a method has to satisfy. -/

/-- How many delimiters are open behind words of these kinds, when `depth` are open before them.
There is no answer if a declaration ends among them. -/
def nest : Nat → List Kind → Option Nat
  | depth, [] => some depth
  | 0, k :: ks =>
    if k = .semicolon ∨ k.isClosing then none else nest (if k.isOpening then 1 else 0) ks
  | depth + 1, k :: ks =>
    if k.isOpening then nest (depth + 2) ks
    else if k.isClosing then nest depth ks
    else nest (depth + 1) ks

theorem nest_append (depth : Nat) (ks ks' : List Kind) :
    nest depth (ks ++ ks') = (nest depth ks).bind (nest · ks') := by
  induction ks generalizing depth with
  | nil => cases depth <;> rfl
  | cons k ks ih =>
    cases depth with
    | zero =>
      rw [List.cons_append, nest, nest]
      split
      · rfl
      · exact ih _
    | succ depth =>
      rw [List.cons_append, nest, nest]
      split
      · exact ih _
      · split <;> exact ih _

/-- What is skipped without an end of a declaration in it. -/
theorem skipNested_append {depth behind : Nat} {tokens : List Token}
    (h : nest depth (tokens.map Token.kind) = some behind) (rest : List Token) :
    skipNested depth (tokens ++ rest) = skipNested behind rest := by
  induction tokens generalizing depth with
  | nil =>
    rw [List.map_nil] at h
    cases depth <;> cases h <;> rfl
  | cons t tokens ih =>
    rw [List.map_cons] at h
    cases depth with
    | zero =>
      rw [nest] at h
      rw [List.cons_append, skipNested]
      split at h
      next => cases h
      next hgoes =>
        rw [if_neg hgoes]
        exact ih h
    | succ depth =>
      rw [nest] at h
      rw [List.cons_append, skipNested]
      split at h
      next hopens =>
        rw [if_pos hopens]
        exact ih h
      next hopens =>
        rw [if_neg hopens]
        split at h
        next hcloses =>
          rw [if_pos hcloses]
          exact ih h
        next hcloses =>
          rw [if_neg hcloses]
          exact ih h

/-! ### Declarations -/

section

variable {scope : Scope} {follow : Option Kind → Prop}

/-- The words of a definition behind the name of a type. -/
def definitionWords (isAlias : Bool) (type : List Word) : List Word :=
  if isAlias then ⟨.assign, "="⟩ :: type else type

/-- A type is read behind its name, unless it begins like type parameters. -/
theorem reports_typeKind {type : List Word} {post : GoType → List String → Prop} {isAlias : Bool}
    (htype : (typeExpr scope).Reports type post (endsType ·))
    (hstart : isAlias ∨ ∃ w ws, type = w :: ws ∧ w.kind ≠ .leftBracket ∧ w.kind ≠ .assign) :
    (typeKind scope).Reports (definitionWords isAlias type)
      (fun kind names => ∃ t, kind = .type t isAlias ∧ post t names) (endsType ·) := by
  have hdefinition : (typeDefinition scope).Reports (definitionWords isAlias type)
      (fun kind names => ∃ t, kind = .type t isAlias ∧ post t names) (endsType ·) := by
    rw [definitionWords]
    have hread : (typeExpr scope >>= fun t => pure (.type t isAlias) : Parser ObjectKind).Reports
        type (fun kind names => ∃ t, kind = .type t isAlias ∧ post t names) (endsType ·) :=
      htype.map fun t names ht => .pure ⟨t, rfl, by rwa [List.append_nil]⟩
    cases isAlias with
    | true => exact .accept_eq rfl hread
    | false =>
      obtain ⟨w, ws, rfl, -, hassign⟩ := hstart.resolve_left (by simp)
      exact .accept_ne (fun _ _ h => hassign (by simpa using h)) hread
  intro tokens rest htokens hrest
  obtain ⟨kind, references, hok, hvalue⟩ := hdefinition tokens rest htokens hrest
  refine ⟨kind, references, ?_, hvalue⟩
  obtain ⟨w, ws, hwords, hbracket⟩ : ∃ w ws, definitionWords isAlias type = w :: ws ∧
      w.kind ≠ .leftBracket := by
    rw [definitionWords]
    cases isAlias with
    | true => exact ⟨_, _, rfl, by simp⟩
    | false =>
      obtain ⟨w, ws, rfl, hbracket, -⟩ := hstart.resolve_left (by simp)
      exact ⟨w, ws, rfl, hbracket⟩
  obtain ⟨t, ts, rfl, ht, -⟩ := cons_of_map_word (htokens.trans hwords)
  have hkind : t.kind ≠ .leftBracket := by rwa [show t.kind = w.kind from congrArg Word.kind ht]
  -- only a bracket begins type parameters
  have hgeneric : isGeneric (t :: ts ++ rest) = false := by
    rw [List.cons_append, isGeneric.eq_def]
    split
    next heq =>
      obtain ⟨rfl, -⟩ := List.cons_eq_cons.1 heq
      simp [hkind]
    next => rfl
  rw [typeKind, hgeneric, hok]
  rfl

/-- **Declarations in words**: up to the end of a file they are read with a property. -/
def Declares (scope : Scope) (words : List Word)
    (post : List Declaration → List String → Prop) : Prop :=
  ∀ n, words.length < n → (declarations scope n).Reports words post (· = none)

theorem declares_nil : Declares scope [] fun ds names => ds = [] ∧ names = [] := by
  intro n hn
  obtain ⟨n, rfl⟩ := Nat.exists_eq_succ_of_ne_zero (Nat.ne_zero_of_lt hn)
  refine .peek fun next hnext => ?_
  subst hnext
  exact .pure ⟨rfl, rfl⟩

/-- The words of a declared type, up to the end of its line. -/
def typeWords (name : String) (isAlias : Bool) (type : List Word) : List Word :=
  (⟨.keyword .typeKw, "type"⟩ : Word) :: (⟨.identifier, name⟩ : Word) ::
    (definitionWords isAlias type ++ [Word.lineEnd])

/-- **A declared type is read**, and then what follows it. -/
theorem Declares.type {name : String} {isAlias : Bool} {type more : List Word} {t : GoType}
    {told : List String → Prop} {post : List Declaration → List String → Prop}
    (htype : (typeExpr scope).Reports type (fun s names => s = t ∧ told names) (endsType ·))
    (hstart : isAlias ∨ ∃ w ws, type = w :: ws ∧ w.kind ≠ .leftBracket ∧ w.kind ≠ .assign)
    (hmore : Declares scope more post) :
    Declares scope (typeWords name isAlias type ++ more) fun ds names => ∃ pos others ns ns',
      ds = ⟨⟨name, .type t isAlias⟩, pos⟩ :: others ∧ names = ns ++ ns' ∧ told ns ∧
        post others ns' := by
  intro n hn
  obtain ⟨n, rfl⟩ := Nat.exists_eq_succ_of_ne_zero (Nat.ne_zero_of_lt hn)
  have hspec : (typeSpec scope false).Reports
      (⟨.identifier, name⟩ :: (definitionWords isAlias type ++ [.lineEnd]))
      (fun d names => ∃ pos, d = ⟨⟨name, .type t isAlias⟩, pos⟩ ∧ told names) fun _ => True := by
    refine .expect rfl fun declared hdeclared => ?_
    have hname : declared.text = name := congrArg Word.text hdeclared
    refine (reports_typeKind htype hstart).bind (fun _ _ => rfl) ?_
    rintro _ names ⟨_, rfl, rfl, htold⟩
    refine (reports_specEnd false).map ?_
    rintro _ _ rfl
    exact .pure ⟨declared.pos, by rw [hname], by simpa using htold⟩
  have hgroup : (group (typeSpec scope)).Reports
      (⟨.identifier, name⟩ :: (definitionWords isAlias type ++ [.lineEnd]))
      (fun ds names => ∃ pos, ds = [⟨⟨name, .type t isAlias⟩, pos⟩] ∧ told names)
      fun _ => True := by
    refine .accept_ne (by simp) (hspec.map ?_)
    rintro _ names ⟨pos, rfl, htold⟩
    exact .pure ⟨pos, rfl, by simpa using htold⟩
  refine .peek fun _ _ => .skip (hgroup.bind (fun _ _ => trivial) ?_)
  rintro _ ns ⟨pos, rfl, htold⟩
  refine (hmore n ?_).map fun others ns' hothers => .pure ⟨pos, others, ns, ns', rfl, ?_⟩
  · simp [typeWords] at hn
    omega
  · simpa using ⟨htold, hothers⟩

/-- The kinds of the words of a method, up to the end of its line. -/
def methodKinds (owner body : List Kind) : List Kind :=
  Kind.keyword .funcKw :: Kind.leftParen ::
    (owner ++ Kind.rightParen :: Kind.identifier :: (body ++ [Kind.semicolon]))

/-- Tokens up to the parenthesis that closes them. -/
theorem skipParens_append {tokens : List Token}
    (h : ∀ t ∈ tokens, t.kind ≠ .leftParen ∧ t.kind ≠ .rightParen) {t : Token}
    (ht : t.kind = .rightParen) (rest : List Token) :
    skipParens 0 (tokens ++ t :: rest) = .ok rest := by
  induction tokens with
  | nil => simp [skipParens, ht]
  | cons u tokens ih =>
    obtain ⟨⟨hopens, hcloses⟩, htokens⟩ := List.forall_mem_cons.1 h
    rw [List.cons_append, skipParens, if_neg hopens, if_neg hcloses]
    exact ih htokens

/-- The receiver of a method is skipped. -/
theorem reports_receiver {words : List Word} {owner : List Kind}
    (hwords : words.map Word.kind = .leftParen :: (owner ++ [.rightParen]))
    (howner : ∀ k ∈ owner, k ≠ .leftParen ∧ k ≠ .rightParen) :
    receiver.Reports words (fun isMethod names => isMethod = true ∧ names = []) fun _ => True := by
  intro tokens rest htokens _
  have hkinds : tokens.map Token.kind = .leftParen :: (owner ++ [.rightParen]) := by
    rw [← hwords, ← htokens, List.map_map]
    rfl
  obtain ⟨t, inner, rfl, ht, hinner⟩ := List.map_eq_cons_iff.1 hkinds
  obtain ⟨ts, us, rfl, hts, hus⟩ := List.map_eq_append_iff.1 hinner
  obtain ⟨u, us, rfl, hu, hus⟩ := List.map_eq_cons_iff.1 hus
  obtain rfl := List.map_eq_nil_iff.1 hus
  have hskip : skipParens 0 (ts ++ u :: rest) = .ok rest :=
    skipParens_append (fun s hs => howner s.kind (hts ▸ List.mem_map_of_mem hs)) hu rest
  refine ⟨true, [], ?_, rfl, rfl⟩
  rw [List.cons_append, List.append_assoc, List.singleton_append, receiver, if_pos ht, hskip]
  rfl

/-- What stands behind the name of a method is skipped up to the end of its line. -/
theorem reports_skipDeclaration {words : List Word} {body : List Kind}
    (hwords : words.map Word.kind = body ++ [.semicolon]) (hbody : nest 0 body = some 0) :
    skipDeclaration.Reports words (fun _ names => names = []) fun _ => True := by
  intro tokens rest htokens _
  have hkinds : tokens.map Token.kind = body ++ [.semicolon] := by
    rw [← hwords, ← htokens, List.map_map]
    rfl
  obtain ⟨ts, us, rfl, hts, hus⟩ := List.map_eq_append_iff.1 hkinds
  obtain ⟨t, us, rfl, ht, hus⟩ := List.map_eq_cons_iff.1 hus
  obtain rfl := List.map_eq_nil_iff.1 hus
  have hskip : skipNested 0 (ts ++ t :: rest) = .ok (t :: rest) := by
    rw [skipNested_append (hts ▸ hbody)]
    simp [skipNested, ht]
  have hend : skipToEnd (ts ++ t :: rest) = .ok ⟨(), [], t :: rest⟩ := by
    rw [skipToEnd, hskip]
    rfl
  refine ⟨(), [], ?_, rfl⟩
  rw [List.append_assoc, List.singleton_append, skipDeclaration, bind_of_ok hend,
    bind_of_ok (accept_of_eq ht rest)]
  rfl

/-- **A method is skipped**, and then what follows it is read. -/
theorem Declares.method {words more : List Word} {owner body : List Kind}
    {post : List Declaration → List String → Prop}
    (hwords : words.map Word.kind = methodKinds owner body)
    (howner : ∀ k ∈ owner, k ≠ .leftParen ∧ k ≠ .rightParen) (hbody : nest 0 body = some 0)
    (hmore : Declares scope more post) : Declares scope (words ++ more) post := by
  intro n hn
  obtain ⟨n, rfl⟩ := Nat.exists_eq_succ_of_ne_zero (Nat.ne_zero_of_lt hn)
  have hsplit : methodKinds owner body = Kind.keyword .funcKw ::
      ((Kind.leftParen :: (owner ++ [Kind.rightParen])) ++
        Kind.identifier :: (body ++ [Kind.semicolon])) := by
    simp [methodKinds]
  rw [hsplit] at hwords
  obtain ⟨func, words, rfl, hfunc, hwords⟩ := List.map_eq_cons_iff.1 hwords
  obtain ⟨front, behind, rfl, hfront, hbehind⟩ := List.map_eq_append_iff.1 hwords
  obtain ⟨declared, inside, rfl, hdeclared, hinside⟩ := List.map_eq_cons_iff.1 hbehind
  have hfuncDeclaration : funcDeclaration.Reports (front ++ declared :: inside)
      (fun ds names => ds = [] ∧ names = []) fun _ => True := by
    refine (reports_receiver hfront howner).bind (fun _ _ => trivial) ?_
    rintro _ _ ⟨rfl, rfl⟩
    refine .expect hdeclared fun _ _ => (reports_skipDeclaration hinside hbody).map ?_
    rintro _ _ rfl
    exact .pure ⟨rfl, rfl⟩
  refine .peek fun _ _ => ?_
  rw [List.cons_append, leading_cons, hfunc]
  refine .skip (hfuncDeclaration.bind (fun _ _ => trivial) ?_)
  rintro _ _ ⟨rfl, rfl⟩
  refine (hmore n ?_).map fun ds' ns' hds' => .pure (by simpa using hds')
  simp at hn
  omega

/-- **A file in words**: a package clause, imports, and declarations. -/
theorem reports_contents {path package : String} {paths : List String} {words : List Word}
    {post : List Declaration → List String → Prop} (hblank : package ≠ "_")
    (hpaths : ∀ path ∈ paths, Importable path ∧ path ≠ "")
    (hstart : ∀ w ∈ words.head?, w.kind ≠ .keyword .importKw)
    (hwords : Declares ⟨⟨path, package⟩, paths.map plainImport⟩ words post) :
    (contents path).Reports
      ([(⟨.keyword .packageKw, "package"⟩ : Word), ⟨.identifier, package⟩, .lineEnd] ++
        (importWords paths ++ words))
      (fun c names => c.package = package ∧ c.imports = paths.map plainImport ∧
        post c.declarations names) (· = none) := by
  have hclause : packageClause.Reports _ _ fun _ => True := reports_packageClause hblank
  refine hclause.bind (fun _ _ => trivial) ?_
  rintro _ _ ⟨rfl, rfl⟩
  refine (reports_imports hpaths).bind (fun next hnext => ?_) ?_
  · cases words with
    | nil => simp [hnext]
    | cons w ws => simpa using hstart w rfl
  rintro _ _ ⟨rfl, rfl⟩
  have hdeclared : (bounded (declarations ⟨⟨path, _⟩, paths.map plainImport⟩)).Reports words post
      (· = none) := .bounded hwords
  refine hdeclared.map fun ds names hds => .pure ⟨rfl, rfl, ?_⟩
  simpa using hds

end

end Multicast.Syntax
