import Mathlib.Data.List.Forall2
import Multicast.Hook.HookedMethod
import Multicast.Proofs.Reads
import Multicast.Proofs.Spelling

/-!
# Types are read back

The words of a well-formed type are read as that type. What is written in front of a name decides
which package it is read with, so the type that is read is the written one, moved between packages:
`settle` says to which. Parameter lists, interface bodies and struct bodies are read element by
element, and each of the three has its own statement, in which the reader of the types inside them
is any parser that reads these types.
-/

namespace Multicast.Syntax

open Source Multicast.Syntax.Parser

/-! ### Type names -/

/-- Whether a type can end before a token of this kind. -/
def endsType : Option Kind → Bool
  | none => true
  | some k => k ∈ [.comma, .rightParen, .rightBracket, .semicolon, .rightBrace, .string]

/-- The type that a name without a package in front of it means. -/
def Scope.meaning (scope : Scope) (name : String) : GoType :=
  if name ∈ predeclared then .basic name else .named scope.package name

section

variable {scope : Scope} {follow : Option Kind → Prop}

/-- What ends a type is no token that a type goes on with. -/
theorem ne_of_endsType {next : Option Kind} (h : endsType next = true) {kind : Kind}
    (hkind : endsType (some kind) = false) : next ≠ some kind := by
  rintro rfl
  rw [hkind] at h
  cases h

/-- The references of a name without a package in front of it. -/
def openNames (name : String) : List String :=
  if name ∈ predeclared then [] else [name]

/-- A name of the file's own is mentioned, and a predeclared one is not. -/
theorem reports_localType (name : String) (pos : Position) :
    (scope.localType name pos).Reports []
      (fun t names => t = scope.meaning name ∧ names = openNames name) follow := by
  unfold Scope.localType Scope.meaning openNames
  split
  · exact .pure ⟨rfl, rfl⟩
  · exact .refer (.pure ⟨rfl, rfl⟩)

theorem reads_localType (name : String) (pos : Position) :
    (scope.localType name pos).Reads [] (· = scope.meaning name) follow :=
  (reports_localType name pos).imp (fun _ _ h => h.1) fun _ h => h

/-- A name alone is a type of the file's package, if nothing behind it goes on with it. -/
theorem reports_typeName_local (name : String) :
    scope.typeName.Reports [⟨.identifier, name⟩]
      (fun t names => t = scope.meaning name ∧ names = openNames name) (endsType ·) := by
  refine .expect rfl fun first hfirst => ?_
  -- neither a dot nor a bracket stands behind the name, since a type ends there
  refine .accept_ne (fun next hnext => ne_of_endsType hnext rfl) ?_
  have htext : first.text = name := congrArg Word.text hfirst
  rw [htext]
  refine .before (reports_localType name first.pos) ?_
  rintro _ _ ⟨rfl, rfl⟩
  exact .at_ne (fun next hnext => ne_of_endsType hnext rfl) (.pure ⟨rfl, List.append_nil _⟩)

/-- The type of a name alone, whatever it mentions. -/
theorem reads_typeName_local (name : String) :
    scope.typeName.Reads [⟨.identifier, name⟩] (· = scope.meaning name) (endsType ·) :=
  (reports_typeName_local name).imp (fun _ _ h => h.1) fun _ h => h

/-- A name behind an imported package is a type of that package, and mentions nothing of the file's
own. -/
theorem reports_typeName_qualified {q : String} {package : PackageId}
    (hq : scope.import? q = some package) (name dot : String) :
    scope.typeName.Reports [⟨.identifier, q⟩, ⟨.dot, dot⟩, ⟨.identifier, name⟩]
      (fun t names => t = .named package name ∧ names = []) (endsType ·) := by
  refine .expect rfl fun first hfirst => ?_
  refine .accept_eq rfl ?_
  have hfirst : first.text = q := congrArg Word.text hfirst
  rw [hfirst, hq]
  refine .expect rfl fun second hsecond => ?_
  have hsecond : second.text = name := congrArg Word.text hsecond
  rw [hsecond]
  refine .pure_bind ?_
  exact .at_ne (fun next hnext => ne_of_endsType hnext rfl) (.pure ⟨rfl, rfl⟩)

/-- The type of a name behind an imported package, whatever it mentions. -/
theorem reads_typeName_qualified {q : String} {package : PackageId}
    (hq : scope.import? q = some package) (name dot : String) :
    scope.typeName.Reads [⟨.identifier, q⟩, ⟨.dot, dot⟩, ⟨.identifier, name⟩]
      (· = .named package name) (endsType ·) :=
  (reports_typeName_qualified hq name dot).imp (fun _ _ h => h.1) fun _ h => h

end

/-! ### Lists -/

/-- Words with a separator between them and an end behind them. -/
def listed (separator ending : Word) (wss : List (List Word)) : List Word :=
  [separator].intercalate wss ++ [ending]

theorem listed_nil (separator ending : Word) : listed separator ending [] = [ending] := rfl

/-- Behind the first words of a list comes its end, or a separator and the rest of the list. -/
theorem listed_cons (separator ending : Word) (words : List Word) (wss : List (List Word)) :
    listed separator ending (words :: wss) =
      words ++ if wss.isEmpty then [ending] else separator :: listed separator ending wss := by
  cases wss <;> simp [listed, List.intercalate_cons_cons]

section

variable {ι α : Type} {spell : ι → List Word} {elements : List ι} {follow : Option Kind → Prop}

/-- **The entries of a parameter list are read one by one.** -/
theorem reads_entries {type : Parser GoType} {good : ι → Entry → Prop} {comma paren : String}
    (helement : ∀ a ∈ elements,
      (Entry.parse type).Reads (spell a) (good a) fun k => k = some .comma ∨ k = some .rightParen)
    (hstart : ∀ a ∈ elements, ∃ w ws, spell a = w :: ws ∧ w.kind ≠ .rightParen) {n : Nat}
    (hn : (listed ⟨.comma, comma⟩ ⟨.rightParen, paren⟩ (elements.map spell)).length < n) :
    (Entry.parseAll type n).Reads
      (listed ⟨.comma, comma⟩ ⟨.rightParen, paren⟩ (elements.map spell))
      (List.Forall₂ good elements) follow := by
  induction elements generalizing n with
  | nil =>
    obtain ⟨n, rfl⟩ := Nat.exists_eq_succ_of_ne_zero (Nat.ne_zero_of_lt hn)
    exact .accept_eq rfl (.pure .nil)
  | cons a elements ih =>
    obtain ⟨n, rfl⟩ := Nat.exists_eq_succ_of_ne_zero (Nat.ne_zero_of_lt hn)
    obtain ⟨w, ws, hspell, hw⟩ := hstart a List.mem_cons_self
    have ha := helement a List.mem_cons_self
    have hrest := ih (fun b hb => helement b (List.mem_cons_of_mem _ hb))
      (fun b hb => hstart b (List.mem_cons_of_mem _ hb)) (n := n)
    rw [List.map_cons, listed_cons] at hn ⊢
    refine .accept_ne (by simp [hspell, hw]) ?_
    -- behind the last entry there is the parenthesis, behind any other a comma
    cases elements with
    | nil =>
      refine ha.bind (fun next _ => .inr rfl) fun first hfirst => ?_
      refine .accept_ne (by simp) (.at_eq (by simp) ?_)
      refine (hrest ?_).map fun others hothers => .pure (.cons hfirst hothers)
      simp [hspell, listed_nil] at hn ⊢
      omega
    | cons b elements =>
      refine ha.bind (fun next _ => .inl rfl) fun first hfirst => .accept_eq rfl ?_
      refine (hrest ?_).map fun others hothers => .pure (.cons hfirst hothers)
      simp [hspell] at hn ⊢
      omega

/-- **The items between braces are read one by one.** -/
theorem reads_braced {item : Parser α} {good : ι → α → Prop} {semicolon brace : String}
    (helement : ∀ a ∈ elements,
      item.Reads (spell a) (good a) fun k => k = some .semicolon ∨ k = some .rightBrace)
    (hstart : ∀ a ∈ elements,
      ∃ w ws, spell a = w :: ws ∧ w.kind ≠ .semicolon ∧ w.kind ≠ .rightBrace) {n : Nat}
    (hn : (listed ⟨.semicolon, semicolon⟩ ⟨.rightBrace, brace⟩ (elements.map spell)).length < n) :
    (braced item n).Reads
      (listed ⟨.semicolon, semicolon⟩ ⟨.rightBrace, brace⟩ (elements.map spell))
      (List.Forall₂ good elements) follow := by
  induction elements generalizing n with
  | nil =>
    obtain ⟨n, rfl⟩ := Nat.exists_eq_succ_of_ne_zero (Nat.ne_zero_of_lt hn)
    exact .skipSemicolons (by simp [listed_nil]) (.accept_eq rfl (.pure .nil))
  | cons a elements ih =>
    obtain ⟨n, rfl⟩ := Nat.exists_eq_succ_of_ne_zero (Nat.ne_zero_of_lt hn)
    obtain ⟨w, ws, hspell, hsemicolon, hbrace⟩ := hstart a List.mem_cons_self
    have ha := helement a List.mem_cons_self
    have hrest := ih (fun b hb => helement b (List.mem_cons_of_mem _ hb))
      (fun b hb => hstart b (List.mem_cons_of_mem _ hb)) (n := n)
    rw [List.map_cons, listed_cons] at hn ⊢
    refine .skipSemicolons (by simp [hspell, hsemicolon]) (.accept_ne (by simp [hspell, hbrace]) ?_)
    -- behind the last item there is the brace, behind any other a semicolon
    cases elements with
    | nil =>
      refine ha.bind (fun next _ => .inr rfl) fun first hfirst => .at_eq (by simp) ?_
      refine (hrest ?_).map fun others hothers => .pure (.cons hfirst hothers)
      simp [hspell, listed_nil] at hn ⊢
      omega
    | cons b elements =>
      refine ha.bind (fun next _ => .inl rfl) fun first hfirst => ?_
      refine .at_ne (by simp) (.expect rfl fun _ _ => ?_)
      refine (hrest ?_).map fun others hothers => .pure (.cons hfirst hothers)
      simp [hspell] at hn ⊢
      omega

end

/-! ### Parameter lists -/

namespace Entry

/-- The parameter that an entry stands for, if its list has all names or none. -/
def param (scope : Scope) : Entry → Param
  | lone name _ => ⟨"", scope.meaning name⟩
  | named name dots type _ => ⟨name, if dots then .slice type else type⟩
  | unnamed dots type _ => ⟨"", if dots then .slice type else type⟩

/-- Whether an entry shows three dots. -/
def hasDots : Entry → Bool
  | lone _ _ => false
  | named _ dots _ _ => dots
  | unnamed dots _ _ => dots

variable {type : Parser GoType} {words : List Word} {w : Word} {post : Entry → Prop}
  {follow : Option Kind → Prop}

/-- A name with a comma or a parenthesis behind it is an entry of its own, and not yet known to be a
type. -/
theorem reads_lone (name : String) :
    (Entry.parse type).Reads [⟨.identifier, name⟩] (fun e => ∃ pos, e = lone name pos)
      fun k => k = some .comma ∨ k = some .rightParen := by
  intro tokens rest htokens hrest
  obtain ⟨t, ts, rfl, ht, hts⟩ := cons_of_map_word htokens
  obtain rfl := List.map_eq_nil_iff.1 hts
  have hkind : t.kind = .identifier := congrArg Word.kind ht
  have htext : t.text = name := congrArg Word.text ht
  refine ⟨lone name t.pos, [], ?_, _, rfl⟩
  change Entry.parse type (t :: rest) = _
  rw [Entry.parse, if_pos ⟨hkind, hrest⟩, htext]

/-- A name with anything else behind it but a dot is the name of a parameter. -/
theorem reads_named {name : String}
    (hnext : ∀ next, follow next →
      ∀ k ∈ [Kind.comma, .rightParen, .dot], leading words next ≠ some k)
    (h : ∀ pos, Parser.Reads (do
      let dots ← accept .ellipsis
      let written ← type
      return named name dots written pos) words post follow) :
    (Entry.parse type).Reads (⟨.identifier, name⟩ :: words) post follow := by
  intro tokens rest htokens hrest
  obtain ⟨t, ts, rfl, ht, hts⟩ := cons_of_map_word htokens
  have hkind : t.kind = .identifier := congrArg Word.kind ht
  have htext : t.text = name := congrArg Word.text ht
  have hnext := hnext _ hrest
  rw [← nextKind_append hts rest] at hnext
  obtain ⟨value, references, heq, hvalue⟩ := h t.pos ts rest hts hrest
  refine ⟨value, references, ?_, hvalue⟩
  change Entry.parse type (t :: (ts ++ rest)) = _
  rw [Entry.parse, if_neg, if_pos ⟨hkind, hnext .dot (by simp)⟩, htext, heq]
  rintro ⟨-, hcomma | hparen⟩
  · exact hnext .comma (by simp) hcomma
  · exact hnext .rightParen (by simp) hparen

/-- An entry that begins with no name, or with a name and a dot, is a type without a name. -/
theorem reads_unnamed
    (hnext : w.kind = .identifier → ∀ next, follow next → leading words next = some .dot)
    (h : ∀ pos, Parser.Reads (do
      let dots ← accept .ellipsis
      let written ← type
      return unnamed dots written pos) (w :: words) post follow) :
    (Entry.parse type).Reads (w :: words) post follow := by
  intro tokens rest htokens hrest
  obtain ⟨t, ts, rfl, ht, hts⟩ := cons_of_map_word htokens
  have hdot : t.kind = .identifier → nextKind (ts ++ rest) = some .dot := by
    intro hkind
    rw [nextKind_append hts]
    exact hnext (by rw [← ht]; exact hkind) _ hrest
  obtain ⟨value, references, heq, hvalue⟩ := h t.pos (t :: ts) rest htokens hrest
  refine ⟨value, references, ?_, hvalue⟩
  change Entry.parse type (t :: (ts ++ rest)) = _
  rw [Entry.parse, if_neg, if_neg]
  · exact heq
  · rintro ⟨hkind, hne⟩
    exact hne (hdot hkind)
  · rintro ⟨hkind, hcomma | hparen⟩
    · cases hcomma.symm.trans (hdot hkind)
    · cases hparen.symm.trans (hdot hkind)

end Entry

/-- **Entries become parameters** if all have names or none has, and if three dots stand at the end
at most, and only where they are allowed. -/
theorem reads_resolve {scope : Scope} {allowDots named : Bool} {entries : List Entry}
    (hnamed : ∀ e ∈ entries, e.isNamed = named)
    (hlast : ∀ e ∈ entries.dropLast, e.hasDots = false)
    (hallow : ∀ e ∈ entries, e.hasDots → allowDots) {follow : Option Kind → Prop} :
    (resolve scope allowDots named entries []).Reads []
      (· = ⟨entries.map (Entry.param scope), entries.any Entry.hasDots⟩) follow := by
  induction entries with
  | nil => exact .pure rfl
  | cons e entries ih =>
    have hrest : (resolve scope allowDots named entries []).Reads []
        (· = ⟨entries.map (Entry.param scope), entries.any Entry.hasDots⟩) follow := by
      refine ih (fun e he => hnamed e (List.mem_cons_of_mem _ he)) (fun e he => ?_)
        fun e he => hallow e (List.mem_cons_of_mem _ he)
      cases entries with
      | nil => cases he
      | cons f entries => exact hlast e (List.mem_cons_of_mem _ he)
    have he := hnamed e List.mem_cons_self
    -- three dots are refused unless they are allowed and nothing stands behind them
    have hdots : (e.hasDots && !(allowDots && entries.isEmpty)) = false := by
      cases entries with
      | nil =>
        have hallowed := hallow e List.mem_cons_self
        cases hdots : e.hasDots <;> simp_all
      | cons f entries => simp [hlast e (by simp)]
    cases e with
    | lone name pos =>
      obtain rfl : false = named := he
      refine .before (reads_localType name pos) ?_
      rintro _ rfl
      refine hrest.map ?_
      rintro _ rfl
      exact .pure rfl
    | named name dots type pos =>
      simp only [Entry.hasDots] at hdots
      simp only [resolve, List.isEmpty_nil, Bool.and_true, hdots, Bool.false_eq_true, if_false]
      refine hrest.map ?_
      rintro _ rfl
      exact .pure rfl
    | unnamed dots type pos =>
      obtain rfl : false = named := he
      simp only [Entry.hasDots] at hdots
      simp only [resolve, List.isEmpty_nil, Bool.and_true, hdots, Bool.false_eq_true, if_false]
      refine hrest.map ?_
      rintro _ rfl
      exact .pure rfl

/-! ### Words of types -/

end Multicast.Syntax

namespace Multicast

open Source Syntax Multicast.Syntax.Parser

/-- A parameter in pieces. A variadic tail shows its element type behind three dots. -/
def HookedParam.pieces (qualifier : PackageId → String) (p : HookedParam) : List Piece :=
  paramPieces p.name <|
    match p.type, p.variadicTail with
    | .slice elem, true => .dots :: elem.pieces qualifier
    | type, _ => type.pieces qualifier

/-- The pieces of a parameter list are those of its hooked parameters, which know whether they are
variadic. -/
theorem Param.piecesAll_eq (qualifier : PackageId → String) (variadic : Bool)
    (params : List Param) :
    Param.piecesAll qualifier variadic params =
      (hookedParams variadic params).map (HookedParam.pieces qualifier) := by
  induction params with
  | nil => rfl
  | cons p params ih =>
    obtain ⟨name, type⟩ := p
    cases params with
    | nil => cases type <;> cases variadic <;> rfl
    | cons q params =>
      rw [Param.piecesAll_cons, ih]
      cases type <;> rfl

/-- A signature is its parameters in parentheses, and its results. -/
theorem Signature.pieces_eq (qualifier : PackageId → String) (s : Signature) :
    s.pieces qualifier =
      listPieces ((hookedParams s.variadic s.params).map (HookedParam.pieces qualifier)) ++
        resultPieces s.results
          (s.results.map fun p => paramPieces p.name (p.type.pieces qualifier)) := by
  cases s
  rw [Signature.pieces, Param.piecesAll_eq, Param.piecesAll_false]

/-- How a file reads the declared types that are written for it: which names are its own, and what
its imports are. -/
structure Readable (scope : Scope) (qualifier : PackageId → String)
    (settle : PackageId → PackageId) (named : PackageId → String → Prop)
    (length : String → Prop) : Prop where
  own : ∀ {package name}, named package name → qualifier package = "" →
    name ∉ predeclared ∧ settle package = scope.package
  foreign : ∀ {package name}, named package name → qualifier package ≠ "" →
    scope.import? (qualifier package) = some (settle package)
  length : ∀ {n}, length n → kindOf n = .number ∨ kindOf n = .identifier

namespace GoType

/-- The words of a type. -/
abbrev words (qualifier : PackageId → String) (t : GoType) : List Word :=
  lexemes (t.pieces qualifier)

/-- A type with its packages settled. -/
abbrev settled (settle : PackageId → PackageId) (t : GoType) : GoType :=
  t.relocate fun package _ => settle package

section

variable {scope : Scope} {qualifier : PackageId → String} {settle : PackageId → PackageId}
  {named : PackageId → String → Prop} {length : String → Prop}

/-- A type is written as a name, as a name behind a package, or begins with another word. -/
theorem words_cases (hreadable : Readable scope qualifier settle named length) {t : GoType}
    (h : t.Proper named length) :
    (∃ n, t.words qualifier = [⟨.identifier, n⟩] ∧ t.settled settle = scope.meaning n ∧
      t.isEmbeddable) ∨
    (∃ q d n package, t.words qualifier = [⟨.identifier, q⟩, ⟨.dot, d⟩, ⟨.identifier, n⟩] ∧
      scope.import? q = some package ∧ t.settled settle = .named package n ∧ t.isEmbeddable) ∨
    ∃ w ws, t.words qualifier = w :: ws ∧ w.kind ≠ .identifier ∧ startsResult w.kind ∧
      (t.isEmbeddable → w.kind = .star) := by
  -- only predeclared and named types begin with a name; the other constructors have a word of their own
  cases t with
  | basic name =>
    refine .inl ⟨name, by simp [words, pieces, lexemes], ?_, rfl⟩
    have hname : name ∈ predeclared := h
    simp only [Scope.meaning, if_pos hname]
    rfl
  | named package name =>
    by_cases hq : qualifier package = ""
    · obtain ⟨hnot, hsettle⟩ := hreadable.own h hq
      refine .inl ⟨name, by simp [words, pieces, qualifiedPieces, lexemes, hq], ?_, rfl⟩
      simp [Scope.meaning, hnot, hsettle]
    · refine .inr (.inl ⟨qualifier package, ".", name, _, ?_, hreadable.foreign h hq, rfl, rfl⟩)
      simp [words, pieces, qualifiedPieces, lexemes, hq]
  | chan direction elem =>
    refine .inr (.inr ?_)
    cases direction with
    | both =>
      cases hr : elem.isReceiver <;>
        simp [words, pieces, chanPieces, lexemes, hr, startsResult, isEmbeddable]
    | send | receive => simp [words, pieces, chanPieces, lexemes, startsResult, isEmbeddable]
  | interface body =>
    cases body
    exact .inr (.inr (by simp [words, pieces, lexemes, startsResult, isEmbeddable]))
  | _ => exact .inr (.inr (by simp [words, pieces, lexemes, startsResult, isEmbeddable]))

end

/-- Every type begins with a word that a result can begin with. -/
theorem start_words (qualifier : PackageId → String) (t : GoType) :
    ∃ w ws, t.words qualifier = w :: ws ∧ startsResult w.kind := by
  cases t with
  | named package name =>
    rw [words, pieces, qualifiedPieces]
    split <;> exact ⟨_, _, rfl, rfl⟩
  | chan direction elem =>
    cases direction with
    | both => cases hr : elem.isReceiver <;> simp [words, pieces, chanPieces, lexemes, hr, startsResult]
    | send | receive => exact ⟨_, _, rfl, rfl⟩
  | interface body => cases body; exact ⟨_, _, rfl, rfl⟩
  | _ => exact ⟨_, _, rfl, rfl⟩

/-- Only a channel that receives begins with an arrow. -/
theorem isReceiver_of_leading {qualifier : PackageId → String} (t : GoType) {next : Option Kind}
    (h : leading (t.words qualifier) next = some .arrow) : t.isReceiver = true := by
  cases t with
  | named package name =>
    rw [words, pieces, qualifiedPieces] at h
    split at h <;> cases h
  | chan direction elem =>
    cases direction with
    | both =>
      rw [words, pieces, chanPieces] at h
      split at h <;> cases h
    | send => cases h
    | receive => rfl
  | interface body => cases body; cases h
  | _ => cases h

end GoType

/-- The words of joined pieces are the joined words. -/
theorem lexemes_joined (separator : List Piece) (pss : List (List Piece)) :
    lexemes (joined separator pss) = (lexemes separator).intercalate (pss.map lexemes) := by
  induction pss with
  | nil => rfl
  | cons ps pss ih =>
    cases pss with
    | nil => simp [joined]
    | cons qs pss =>
      simp only [joined, List.intercalate_cons_cons, List.map_cons, lexemes_append] at ih ⊢
      rw [ih]

/-- A parenthesized list in words. -/
theorem lexemes_list (pss : List (List Piece)) :
    lexemes (listPieces pss) =
      ⟨.leftParen, "("⟩ :: listed ⟨.comma, ","⟩ ⟨.rightParen, ")"⟩ (pss.map lexemes) := by
  simp [listPieces, listed, lexemes, lexemes_joined]

/-- A body in braces in words. -/
theorem lexemes_body (pss : List (List Piece)) :
    lexemes (bodyPieces pss) =
      ⟨.leftBrace, "\x7b"⟩ :: listed ⟨.semicolon, ";"⟩ ⟨.rightBrace, "\x7d"⟩ (pss.map lexemes) := by
  simp [bodyPieces, listed, lexemes, lexemes_joined]

/-! ### Parameters and signatures -/

section

variable {scope : Scope} {qualifier : PackageId → String} {settle : PackageId → PackageId}
  {named : PackageId → String → Prop} {length : String → Prop} {type : Parser GoType}
  {follow : Option Kind → Prop}

/-- Reading a type that is written with these qualifiers. -/
def ReadsBack (qualifier : PackageId → String) (settle : PackageId → PackageId)
    (type : Parser GoType) (t : GoType) : Prop :=
  type.Reads (t.words qualifier) (· = t.settled settle) (endsType ·)

/-- A parameter with its packages settled. -/
def HookedParam.settled (settle : PackageId → PackageId) (p : HookedParam) : Param :=
  ⟨p.name, p.type.settled settle⟩

/-- What an entry is for the parameter that it was written for. -/
structure Entry.Spells (scope : Scope) (settle : PackageId → PackageId) (p : HookedParam)
    (e : Entry) : Prop where
  param : e.param scope = p.settled settle
  isNamed : e.isNamed = !p.name.isEmpty
  hasDots : e.hasDots = p.variadicTail

/-- What may stand behind an entry ends its type. -/
theorem endsType_of_endsEntry {next : Option Kind} (h : next = some .comma ∨ next = some .rightParen) :
    endsType next = true := by
  rcases h with rfl | rfl <;> rfl

/-- The element type of a variadic entry stands behind three dots. -/
theorem reads_variadicEntry {name : String} {elem : GoType}
    (helem : ReadsBack qualifier settle type elem) :
    (Entry.parse type).Reads (lexemes (HookedParam.pieces qualifier ⟨name, .slice elem, true⟩))
      (Entry.Spells scope settle ⟨name, .slice elem, true⟩)
      fun k => k = some .comma ∨ k = some .rightParen := by
  have helem := helem.imp (fun _ h => h) fun _ => endsType_of_endsEntry
  by_cases hname : name = ""
  · subst hname
    refine Entry.reads_unnamed (fun h => by cases h) fun pos => .accept_eq rfl (helem.map ?_)
    rintro _ rfl
    exact .pure ⟨rfl, rfl, rfl⟩
  · have hwords : lexemes (HookedParam.pieces qualifier ⟨name, .slice elem, true⟩) =
        ⟨.identifier, name⟩ :: ⟨.ellipsis, "..."⟩ :: elem.words qualifier := by
      simp [HookedParam.pieces, paramPieces, hname, lexemes]
    rw [hwords]
    refine Entry.reads_named (by simp) fun pos => .accept_eq rfl (helem.map ?_)
    rintro _ rfl
    exact .pure ⟨rfl, by simp [Entry.isNamed, hname], rfl⟩

/-- No type begins with three dots, with a dot, or with what ends an entry. -/
theorem leading_words_ne (hreadable : Readable scope qualifier settle named length) {t : GoType}
    (hproper : t.Proper named length) (next : Option Kind) {k : Kind}
    (hk : endsType (some k) = true ∨ k = .dot ∨ k = .ellipsis) :
    leading (t.words qualifier) next ≠ some k := by
  intro heq
  rcases t.words_cases hreadable hproper with ⟨n, hn, -⟩ | ⟨q, d, n, package, hq, -⟩ |
    ⟨w, ws, hw, -, hstarts, -⟩
  · rw [hn] at heq
    cases heq
    simp [endsType] at hk
  · rw [hq] at heq
    cases heq
    simp [endsType] at hk
  · rw [hw] at heq
    obtain rfl : w.kind = k := by simpa using heq
    cases hkind : w.kind <;> simp_all [endsType, startsResult]

/-- A type without a name is read at once if it is a single name, and as a type otherwise. -/
theorem reads_unnamedEntry (hreadable : Readable scope qualifier settle named length) {t : GoType}
    (hproper : t.Proper named length) (htype : ReadsBack qualifier settle type t) :
    (Entry.parse type).Reads (lexemes (HookedParam.pieces qualifier ⟨"", t, false⟩))
      (Entry.Spells scope settle ⟨"", t, false⟩)
      fun k => k = some .comma ∨ k = some .rightParen := by
  have hself := htype.imp (fun _ h => h) fun _ => endsType_of_endsEntry
  have hwords : lexemes (HookedParam.pieces qualifier ⟨"", t, false⟩) = t.words qualifier := by
    cases t <;> simp [HookedParam.pieces, paramPieces]
  rw [hwords]
  have hunnamed : ∀ pos, Parser.Reads (do
      let dots ← accept .ellipsis
      let written ← type
      return Entry.unnamed dots written pos) (t.words qualifier)
      (Entry.Spells scope settle ⟨"", t, false⟩)
      fun k => k = some .comma ∨ k = some .rightParen := by
    refine fun pos => .accept_ne (fun next _ => leading_words_ne hreadable hproper next (by simp))
      (hself.map ?_)
    rintro _ rfl
    exact .pure ⟨rfl, rfl, rfl⟩
  rcases t.words_cases hreadable hproper with ⟨n, hn, hmeaning, -⟩ | ⟨q, d, n, package, hq, -⟩ |
    ⟨w, ws, hw, hkind, -, -⟩
  · rw [hn]
    refine (Entry.reads_lone n).imp ?_ fun _ h => h
    rintro _ ⟨pos, rfl⟩
    exact ⟨congrArg (Param.mk "") hmeaning.symm, rfl, rfl⟩
  · rw [hq] at hunnamed ⊢
    exact Entry.reads_unnamed (fun _ _ _ => rfl) hunnamed
  · rw [hw] at hunnamed ⊢
    exact Entry.reads_unnamed (fun h => absurd h hkind) hunnamed

/-- A name in front of a type is seen to be one by what the type begins with. -/
theorem reads_namedEntry (hreadable : Readable scope qualifier settle named length) {name : String}
    (hname : name ≠ "") {t : GoType} (hproper : t.Proper named length)
    (htype : ReadsBack qualifier settle type t) :
    (Entry.parse type).Reads (lexemes (HookedParam.pieces qualifier ⟨name, t, false⟩))
      (Entry.Spells scope settle ⟨name, t, false⟩)
      fun k => k = some .comma ∨ k = some .rightParen := by
  have hself := htype.imp (fun _ h => h) fun _ => endsType_of_endsEntry
  have hwords : lexemes (HookedParam.pieces qualifier ⟨name, t, false⟩) =
      ⟨.identifier, name⟩ :: t.words qualifier := by
    cases t <;> simp [HookedParam.pieces, paramPieces, hname, lexemes]
  rw [hwords]
  refine Entry.reads_named (fun next _ k hk => leading_words_ne hreadable hproper next ?_)
    fun pos => ?_
  -- none of the tokens that make a name a type stands behind it
  · rcases List.mem_cons.1 hk with rfl | hk
    · exact .inl rfl
    rcases List.mem_cons.1 hk with rfl | hk
    · exact .inl rfl
    · exact .inr (.inl (List.mem_singleton.1 hk))
  · refine .accept_ne (fun next _ => leading_words_ne hreadable hproper next (by simp))
      (hself.map ?_)
    rintro _ rfl
    exact .pure ⟨rfl, by simp [Entry.isNamed, hname], rfl⟩

/-- **An entry is read as the parameter it was written for**, with a name or without, and with dots
or without. -/
theorem reads_entry (hreadable : Readable scope qualifier settle named length) {p : HookedParam}
    (hproper : p.type.Proper named length) (htail : p.variadicTail → p.type.isSlice)
    (htype : ∀ t, p.type.Has t → ReadsBack qualifier settle type t) :
    (Entry.parse type).Reads (lexemes (p.pieces qualifier)) (Entry.Spells scope settle p)
      fun k => k = some .comma ∨ k = some .rightParen := by
  obtain ⟨name, t, tail⟩ := p
  cases tail with
  | true =>
    obtain ⟨elem, rfl⟩ : ∃ elem, t = .slice elem := by
      have hslice := htail rfl
      cases t <;> first | exact ⟨_, rfl⟩ | cases hslice
    exact reads_variadicEntry (htype elem (.inside (List.mem_singleton_self _) (.self _)))
  | false =>
    by_cases hname : name = ""
    · exact hname ▸ reads_unnamedEntry hreadable hproper (htype t (.self t))
    · exact reads_namedEntry hreadable hname hproper (htype t (.self t))

/-- No parameter begins with a closing parenthesis. -/
theorem HookedParam.start_pieces (qualifier : PackageId → String) (p : HookedParam) :
    ∃ w ws, lexemes (p.pieces qualifier) = w :: ws ∧ w.kind ≠ .rightParen := by
  unfold HookedParam.pieces paramPieces
  split
  · split
    · exact ⟨_, _, rfl, by simp⟩
    · obtain ⟨w, ws, hw, hstarts⟩ := p.type.start_words qualifier
      refine ⟨w, ws, hw, fun h => ?_⟩
      rw [h] at hstarts
      cases hstarts
  · exact ⟨_, _, rfl, by simp⟩

/-- Entries that stand for parameters one by one do so for the whole list. -/
theorem forall₂_of_spells {scope : Scope} {settle : PackageId → PackageId} {ps : List HookedParam}
    {es : List Entry} (h : List.Forall₂ (Entry.Spells scope settle) ps es) :
    es.map (Entry.param scope) = ps.map (HookedParam.settled settle) ∧
      es.map Entry.isNamed = (ps.map fun p => !p.name.isEmpty) ∧
      es.map Entry.hasDots = ps.map HookedParam.variadicTail := by
  induction h with
  | nil => exact ⟨rfl, rfl, rfl⟩
  | cons h _ ih => simp [h.param, h.isNamed, h.hasDots, ih]

/-- Entries that stand for parameters with names for all or for none are alike in this too. -/
theorem isNamed_of_spells {scope : Scope} {settle : PackageId → PackageId} {ps : List HookedParam}
    {entries : List Entry} (hspells : List.Forall₂ (Entry.Spells scope settle) ps entries)
    (huniform : (∀ p ∈ ps, p.name = "") ∨ ∀ p ∈ ps, p.name ≠ "") :
    ∀ e ∈ entries, e.isNamed = entries.any Entry.isNamed := by
  have hname {e : Entry} (he : e ∈ entries) : ∃ p ∈ ps, (!p.name.isEmpty) = e.isNamed := by
    have hmem := List.mem_map_of_mem (f := Entry.isNamed) he
    rw [(forall₂_of_spells hspells).2.1] at hmem
    exact List.mem_map.1 hmem
  intro e he
  rcases huniform with hnone | hall
  · have hfalse : ∀ e ∈ entries, e.isNamed = false := by
      intro e he
      obtain ⟨p, hp, hpe⟩ := hname he
      rw [hnone p hp] at hpe
      exact hpe.symm
    rw [hfalse e he, eq_comm, List.any_eq_false]
    exact fun e he => by simp [hfalse e he]
  · obtain ⟨p, hp, hpe⟩ := hname he
    have htrue : e.isNamed = true := hpe.symm.trans (by simp [hall p hp])
    rw [htrue, eq_comm, List.any_eq_true]
    exact ⟨e, he, htrue⟩

/-- Parameters as they can be written: with names for all or for none, and with three dots for a
slice at the end at most. -/
structure HookedParam.Listable (ps : List HookedParam) : Prop where
  uniform : (∀ p ∈ ps, p.name = "") ∨ ∀ p ∈ ps, p.name ≠ ""
  last : ∀ p ∈ ps.dropLast, p.variadicTail = false
  slice : ∀ p ∈ ps, p.variadicTail → p.type.isSlice

/-- **A parameter list is read as the parameters it was written for.** -/
theorem reads_parameters (hreadable : Readable scope qualifier settle named length)
    {ps : List HookedParam} (hps : HookedParam.Listable ps) {allowDots : Bool}
    (hallow : ∀ p ∈ ps, p.variadicTail → allowDots)
    (hproper : ∀ p ∈ ps, p.type.Proper named length)
    (htype : ∀ p ∈ ps, ∀ t, p.type.Has t → ReadsBack qualifier settle type t) :
    (parameters scope type allowDots).Reads
      (lexemes (listPieces (ps.map (HookedParam.pieces qualifier))))
      (· = ⟨ps.map (HookedParam.settled settle), ps.any HookedParam.variadicTail⟩) follow := by
  rw [lexemes_list, List.map_map]
  refine .expect rfl fun _ _ => ?_
  have hentries : (bounded (Entry.parseAll type)).Reads
      (listed ⟨.comma, ","⟩ ⟨.rightParen, ")"⟩
        (ps.map (lexemes ∘ HookedParam.pieces qualifier)))
      (List.Forall₂ (Entry.Spells scope settle) ps) follow := by
    refine .bounded fun n hn => reads_entries (fun p hp => ?_) (fun p _ => ?_) hn
    · exact reads_entry hreadable (hproper p hp) (hps.slice p hp) (htype p hp)
    · exact p.start_pieces qualifier
  refine hentries.map fun entries hspells => ?_
  obtain ⟨hparam, -, hdots⟩ := forall₂_of_spells hspells
  have hnamed := isNamed_of_spells hspells hps.uniform
  -- that only the last parameter shows dots is told of the parameters, and so of their entries
  have hlast : ∀ e ∈ entries.dropLast, e.hasDots = false := by
    intro e he
    have hmem := List.mem_map_of_mem (f := Entry.hasDots) he
    rw [List.map_dropLast, hdots, ← List.map_dropLast] at hmem
    obtain ⟨p, hp, hpe⟩ := List.mem_map.1 hmem
    rw [← hpe, hps.last p hp]
  have hallowed : ∀ e ∈ entries, e.hasDots → allowDots := by
    intro e he htrue
    have hmem := List.mem_map_of_mem (f := Entry.hasDots) he
    rw [hdots] at hmem
    obtain ⟨p, hp, hpe⟩ := List.mem_map.1 hmem
    exact hallow p hp (hpe.trans htrue)
  refine (reads_resolve hnamed hlast hallowed).imp ?_ fun _ h => h
  rintro _ rfl
  have hany : entries.any Entry.hasDots = ps.any HookedParam.variadicTail := by
    have h := congrArg (List.any · id) hdots
    simpa [List.any_map] using h
  rw [hparam, hany]

/-- The last parameter of a list may be variadic. -/
theorem hookedParams_singleton (variadic : Bool) (p : Param) :
    hookedParams variadic [p] = [⟨p.name, p.type, variadic && p.type.isSlice⟩] := by
  cases p
  rfl

/-- No other parameter than the last one is variadic. -/
theorem hookedParams_cons (variadic : Bool) (p q : Param) (params : List Param) :
    hookedParams variadic (p :: q :: params) =
      ⟨p.name, p.type, false⟩ :: hookedParams variadic (q :: params) := by
  cases p
  rfl

/-- What is made of names and types alone is made of a parameter, hooked or not. -/
theorem map_hookedParams_eq {α : Type} {f : HookedParam → α} {g : Param → α}
    (h : ∀ (p : Param) (tail : Bool), f ⟨p.name, p.type, tail⟩ = g p) (variadic : Bool)
    (params : List Param) : (hookedParams variadic params).map f = params.map g := by
  induction params with
  | nil => rfl
  | cons p params ih =>
    cases params with
    | nil => rw [hookedParams_singleton, List.map_singleton, h, List.map_singleton]
    | cons q params => rw [hookedParams_cons, List.map_cons, ih, h, List.map_cons (l := q :: params)]

theorem type_hookedParams (variadic : Bool) (params : List Param) :
    (hookedParams variadic params).map HookedParam.type = params.map Param.type :=
  map_hookedParams_eq (fun _ _ => rfl) variadic params

theorem settled_hookedParams (settle : PackageId → PackageId) (variadic : Bool)
    (params : List Param) :
    (hookedParams variadic params).map (HookedParam.settled settle) =
      params.map (Param.mapType (GoType.settled settle)) :=
  map_hookedParams_eq (fun _ _ => rfl) variadic params

/-- A hooked parameter is one of the list, and it is variadic only if the list is and its type is a
slice. -/
theorem mem_of_hookedParams {variadic : Bool} {params : List Param} {p : HookedParam}
    (h : p ∈ hookedParams variadic params) :
    (⟨p.name, p.type⟩ : Param) ∈ params ∧ (p.variadicTail → variadic ∧ p.type.isSlice) := by
  induction params with
  | nil => cases h
  | cons q params ih =>
    cases params with
    | nil =>
      rw [hookedParams_singleton] at h
      obtain rfl := List.mem_singleton.1 h
      cases q
      exact ⟨List.mem_singleton_self _, by simp⟩
    | cons r params =>
      rw [hookedParams_cons] at h
      rcases List.mem_cons.1 h with rfl | h
      · cases q
        exact ⟨List.mem_cons_self, fun h => by cases h⟩
      · exact (ih h).imp_left (List.mem_cons_of_mem _)

/-- None but the last of the hooked parameters shows three dots. -/
theorem last_hookedParams (variadic : Bool) (params : List Param) :
    ∀ p ∈ (hookedParams variadic params).dropLast, p.variadicTail = false := by
  induction params with
  | nil => simp [hookedParams]
  | cons q params ih =>
    cases params with
    | nil => simp [hookedParams_singleton]
    | cons r params =>
      have hne : hookedParams variadic (r :: params) ≠ [] := by
        cases params <;> simp [hookedParams_singleton, hookedParams_cons]
      rw [hookedParams_cons, List.dropLast_cons_of_ne_nil hne]
      intro p hp
      rcases List.mem_cons.1 hp with rfl | hp
      · rfl
      · exact ih p hp

/-- Three dots are shown if the last parameter is a slice of a variadic list. -/
theorem any_hookedParams (variadic : Bool) (params : List Param) :
    (hookedParams variadic params).any HookedParam.variadicTail =
      params.getLast?.any fun p => variadic && p.type.isSlice := by
  induction params with
  | nil => rfl
  | cons q params ih =>
    cases params with
    | nil => simp [hookedParams_singleton]
    | cons r params => rw [hookedParams_cons, List.any_cons, ih]; simp

/-- The three dots of a proper signature show whether it is variadic. -/
theorem Signature.Proper.any_variadicTail {s : Signature} (h : s.Proper) :
    (hookedParams s.variadic s.params).any HookedParam.variadicTail = s.variadic := by
  rw [any_hookedParams]
  cases hvariadic : s.variadic with
  | false => cases s.params.getLast? <;> rfl
  | true =>
    obtain ⟨p, hp, hslice⟩ := h.variadic hvariadic
    rw [Option.mem_def.1 hp]
    simpa using hslice

/-- The parameters of a list that names all of them or none can be written. -/
theorem Uniform.listable {params : List Param} (h : Uniform params) (variadic : Bool) :
    HookedParam.Listable (hookedParams variadic params) where
  uniform := by
    refine h.imp (fun h p hp => h _ (mem_of_hookedParams hp).1) fun h p hp heq => ?_
    have hwrites := h _ (mem_of_hookedParams hp).1
    obtain ⟨c, cs, htext, -⟩ := head_of_writes hwrites
    simp [heq] at htext
  last := last_hookedParams variadic params
  slice p hp htail := ((mem_of_hookedParams hp).2 htail).2

/-- **A signature is read as the one it was written for.** -/
theorem reads_signature (hreadable : Readable scope qualifier settle named length)
    {s : Signature} (hs : s.Proper) (hproper : ∀ t ∈ s.types, t.Proper named length)
    (htype : ∀ c ∈ s.types, ∀ t, c.Has t → ReadsBack qualifier settle type t) :
    (signature scope type).Reads (lexemes (s.pieces qualifier))
      (· = s.mapTypes (GoType.settled settle)) (endsType ·) := by
  have hmem {variadic : Bool} {params : List Param}
      (hparams : params = s.params ∨ params = s.results) {p : HookedParam}
      (hp : p ∈ hookedParams variadic params) : p.type ∈ s.types := by
    have hparam := (mem_of_hookedParams hp).1
    exact Signature.mem_types.2 (hparams.imp (fun h => ⟨_, h ▸ hparam, rfl⟩)
      fun h => ⟨_, h ▸ hparam, rfl⟩)
  have hlist : (parameters scope type true).Reads _ _ fun _ => True :=
    reads_parameters hreadable (hs.params.listable s.variadic) (fun _ _ _ => rfl)
      (fun p hp => hproper _ (hmem (.inl rfl) hp)) fun p hp => htype _ (hmem (.inl rfl) hp)
  rw [settled_hookedParams, hs.any_variadicTail] at hlist
  rw [Signature.pieces_eq, lexemes_append]
  refine hlist.bind (fun _ _ => trivial) ?_
  rintro _ rfl
  rw [Signature.mapTypes]
  -- the results are one type alone, none at all, or a list in parentheses
  unfold resultPieces
  split
  next t _ hresults hpieces =>
    -- a single result without a name stands alone
    have ht : t ∈ s.types := Signature.mem_types.2 (.inr ⟨⟨"", t⟩, by simp [hresults], rfl⟩)
    obtain ⟨w, ws, hw, hstarts⟩ := t.start_words qualifier
    obtain rfl : t.pieces qualifier = _ := by simpa [hresults, paramPieces] using hpieces
    have hread := htype t ht t (.self t)
    have hwords : lexemes (.space :: t.pieces qualifier) = t.words qualifier := rfl
    rw [hwords]
    refine .at_ne (fun next _ h => ?_) (.peek fun next _ => ?_)
    · rw [hw] at h
      have hkind : w.kind = .leftParen := by simpa using h
      rw [hkind] at hstarts
      cases hstarts
    · rw [hw, leading_cons, ← hw]
      simp only [Option.any_some, hstarts, if_true]
      refine hread.map ?_
      rintro _ rfl
      exact .pure_bind (.pure (by rw [hresults]; rfl))
  next hresults =>
    refine .at_ne (fun next hnext => ne_of_endsType hnext rfl) (.peek fun next hnext => ?_)
    -- what ends the signature begins no result
    have hstarts : next.any startsResult = false := by
      cases next with
      | none => rfl
      | some k => cases k <;> first | rfl | cases hnext
    rw [lexemes, leading_nil, hstarts]
    exact .pure_bind (.pure (by rw [hresults]; rfl))
  next =>
    -- results are never variadic, so they are written as hooked parameters too
    have hpieces : (s.results.map fun p => paramPieces p.name (p.type.pieces qualifier)) =
        (hookedParams false s.results).map (HookedParam.pieces qualifier) := by
      rw [← Param.piecesAll_eq, Param.piecesAll_false]
    have hresults : (parameters scope type false).Reads _ _ (endsType ·) :=
      reads_parameters hreadable (hs.results.listable false)
        (fun p hp htail => ((mem_of_hookedParams hp).2 htail).1)
        (fun p hp => hproper _ (hmem (.inr rfl) hp)) fun p hp => htype _ (hmem (.inr rfl) hp)
    rw [settled_hookedParams] at hresults
    have hwords (pss : List (List Piece)) :
        lexemes (.space :: listPieces pss) = lexemes (listPieces pss) := rfl
    rw [hwords, hpieces]
    refine .at_eq (fun next _ => by rw [lexemes_list]; rfl) (.peek fun next _ => ?_)
    refine hresults.map ?_
    rintro _ rfl
    exact .pure_bind (.pure rfl)

/-! ### Interfaces -/

/-- How an item ends between braces. -/
def endsItem (next : Option Kind) : Prop :=
  next = some .semicolon ∨ next = some .rightBrace

/-- What ends an item between braces ends the type in it. -/
theorem endsType_of_endsItem {next : Option Kind} (h : endsItem next) : endsType next = true := by
  rcases h with rfl | rfl <;> rfl

/-- A method of an interface is told from an embedded type by the parenthesis behind its name. -/
theorem reads_method (hreadable : Readable scope qualifier settle named length) {m : Method}
    (hs : m.signature.Proper) (hproper : ∀ t ∈ m.signature.types, t.Proper named length)
    (htype : ∀ c ∈ m.signature.types, ∀ t, c.Has t → ReadsBack qualifier settle type t) :
    (element scope type).Reads (lexemes (.name m.name :: m.signature.pieces qualifier))
      (· = .method (m.mapTypes (GoType.settled settle))) endsItem := by
  have hsignature := reads_signature hreadable hs hproper htype
  have hwords : lexemes (.name m.name :: m.signature.pieces qualifier) =
      ⟨.identifier, m.name⟩ :: lexemes (m.signature.pieces qualifier) := by
    simp [lexemes]
  obtain ⟨ws, hparen⟩ : ∃ ws, lexemes (m.signature.pieces qualifier) = ⟨.leftParen, "("⟩ :: ws := by
    rw [Signature.pieces_eq, lexemes_append, lexemes_list]
    exact ⟨_, rfl⟩
  rw [hwords]
  -- the reader looks at the name and at the parenthesis behind it
  refine .peek fun next _ => .peek_one fun next _ => ?_
  rw [hparen] at hsignature ⊢
  refine .expect rfl fun first hfirst => ?_
  refine (hsignature.imp (fun _ h => h) fun _ => endsType_of_endsItem).map ?_
  rintro _ rfl
  have hname : first.text = m.name := congrArg Word.text hfirst
  exact .pure (by rw [hname]; rfl)

/-- An embedded type is read as a type. No name in front of it has a parenthesis behind it. -/
theorem reads_embed (hreadable : Readable scope qualifier settle named length) {t : GoType}
    (hproper : t.Proper named length) (htype : ReadsBack qualifier settle type t) :
    (element scope type).Reads (t.words qualifier) (· = .embed (t.settled settle)) endsItem := by
  have hread : Parser.Reads (do
      let pos ← here
      let embedded ← type
      if ← at? .pipe then failAt pos .constraint
      return Element.embed embedded) (t.words qualifier) (· = .embed (t.settled settle))
      endsItem := by
    refine .here fun pos => ?_
    refine (htype.imp (fun _ h => h) fun _ => endsType_of_endsItem).map ?_
    rintro _ rfl
    refine .at_ne (fun next hnext => ?_) (.pure rfl)
    rcases hnext with rfl | rfl <;> simp
  refine .peek fun next hnext => ?_
  -- only where the type begins with a name does the token behind it matter
  rcases t.words_cases hreadable hproper with ⟨n, hn, -⟩ | ⟨q, d, n, package, hq, -⟩ |
    ⟨w, ws, hw, hkind, hstarts, -⟩
  · rw [hn] at hread ⊢
    refine .peek_one fun next hnext => ?_
    rcases hnext with rfl | rfl <;> exact hread
  · rw [hq] at hread ⊢
    exact .peek_one fun next hnext => hread
  · rw [hw] at hread ⊢
    refine .peek_one fun next hnext => ?_
    rw [leading_cons]
    cases hk : w.kind <;> first | exact hread | simp_all [startsResult]

/-- The elements of an interface as they are written. -/
def Interface.elements (body : Interface) : List Element :=
  body.methods.map .method ++ body.embeds.map .embed

/-- The elements of an interface are its methods and its embedded types, in this order. -/
theorem interfaceOf_elements (body : Interface) : interfaceOf body.elements = body := by
  cases body
  simp [interfaceOf, Interface.elements, List.filterMap_append, List.filterMap_map]

theorem eq_map_of_forall₂ {α β : Type} {f : α → β} {as : List α} {bs : List β}
    (h : List.Forall₂ (fun a b => b = f a) as bs) : bs = as.map f := by
  induction h with
  | nil => rfl
  | cons h _ ih => rw [List.map_cons, h, ih]

/-- An element in words. -/
def elementWords (qualifier : PackageId → String) : Element → List Word
  | .method m => lexemes (.name m.name :: m.signature.pieces qualifier)
  | .embed t => t.words qualifier

/-- An element with its packages settled. -/
def settledElement (settle : PackageId → PackageId) : Element → Element
  | .method m => .method (m.mapTypes (GoType.settled settle))
  | .embed t => .embed (t.settled settle)

/-- **An interface body is read as the one it was written for.** -/
theorem reads_interfaceBody (hreadable : Readable scope qualifier settle named length)
    {body : Interface}
    (hmethods : ∀ m ∈ body.methods, m.signature.Proper)
    (hproper : ∀ t ∈ (GoType.interface body).components, t.Proper named length)
    (htype : ∀ c ∈ (GoType.interface body).components, ∀ t, c.Has t →
      ReadsBack qualifier settle type t) :
    (interfaceBody scope type).Reads
      (lexemes (bodyPieces (Method.piecesAll qualifier body.methods ++
        GoType.piecesAll qualifier body.embeds)))
      (· = body.mapTypes (GoType.settled settle)) follow := by
  have hwords : lexemes (bodyPieces (Method.piecesAll qualifier body.methods ++
      GoType.piecesAll qualifier body.embeds)) =
        ⟨.leftBrace, "\x7b"⟩ :: listed ⟨.semicolon, ";"⟩ ⟨.rightBrace, "\x7d"⟩
          (body.elements.map (elementWords qualifier)) := by
    rw [lexemes_body, Method.piecesAll_eq, GoType.piecesAll_eq, Interface.elements]
    simp [Function.comp_def, elementWords]
  rw [hwords]
  refine .expect rfl fun _ _ => ?_
  have hmethod {m : Method} (hm : m ∈ body.methods) {t : GoType} (ht : t ∈ m.signature.types) :
      t ∈ (GoType.interface body).components :=
    List.mem_append_left _ (List.mem_flatMap.2 ⟨m, hm, ht⟩)
  have hbraced : (bounded (braced (element scope type))).Reads
      (listed ⟨.semicolon, ";"⟩ ⟨.rightBrace, "\x7d"⟩ (body.elements.map (elementWords qualifier)))
      (List.Forall₂ (fun a b => b = settledElement settle a) body.elements) follow := by
    -- each element is a method or an embedded type, and none begins with what ends an item
    refine .bounded fun n hn => reads_braced (fun e he => ?_) (fun e he => ?_) hn
    · rcases List.mem_append.1 he with he | he
      · obtain ⟨m, hm, rfl⟩ := List.mem_map.1 he
        exact reads_method hreadable (hmethods m hm) (fun t ht => hproper t (hmethod hm ht))
          fun c hc => htype c (hmethod hm hc)
      · obtain ⟨t, ht, rfl⟩ := List.mem_map.1 he
        have ht : t ∈ (GoType.interface body).components := List.mem_append_right _ ht
        exact reads_embed hreadable (hproper t ht) (htype t ht t (.self t))
    · cases e with
      | method m => exact ⟨_, _, rfl, by simp, by simp⟩
      | embed t =>
        obtain ⟨w, ws, hw, hstarts⟩ := t.start_words qualifier
        refine ⟨w, ws, hw, fun h => ?_, fun h => ?_⟩ <;>
        · rw [h] at hstarts
          cases hstarts
  refine hbraced.map fun elements helements => .pure ?_
  rw [eq_map_of_forall₂ helements, ← interfaceOf_elements (body.mapTypes _), Interface.elements,
    Interface.elements, Interface.mapTypes]
  simp [Function.comp_def, settledElement]

/-! ### Structs -/

/-- A tag is read if there is one, and none is read where the field ends. -/
theorem reports_tag (t : Option String) :
    tag.Reports (t.elim [] fun t => [⟨.string, t⟩]) (fun a names => a = t ∧ names = []) endsItem := by
  intro tokens rest htokens hrest
  cases t with
  | none =>
    obtain rfl := List.map_eq_nil_iff.1 htokens
    refine ⟨none, [], ?_, rfl, rfl⟩
    cases rest with
    | nil => rfl
    | cons t rest =>
      have hkind : t.kind ≠ .string := by
        intro hkind
        rcases hrest with h | h <;> simp [nextKind, hkind] at h
      rw [List.nil_append, tag, if_neg hkind]
  | some text =>
    obtain ⟨t, ts, rfl, ht, hts⟩ := cons_of_map_word htokens
    obtain rfl := List.map_eq_nil_iff.1 hts
    have hkind : t.kind = .string := congrArg Word.kind ht
    have htext : t.text = text := congrArg Word.text ht
    refine ⟨some text, [], ?_, rfl, rfl⟩
    change tag (t :: rest) = _
    rw [tag, if_pos hkind, htext]

theorem reads_tag (t : Option String) :
    tag.Reads (t.elim [] fun t => [⟨.string, t⟩]) (· = t) endsItem :=
  (reports_tag t).imp (fun _ _ h => h.1) fun _ h => h

/-- A name that no comma follows is read alone. -/
theorem reports_names (n : String) :
    Parser.Reports names [⟨.identifier, n⟩] (fun ts names => ts.map Token.text = [n] ∧ names = [])
      (· ≠ some .comma) := by
  intro tokens rest htokens hrest
  obtain ⟨t, ts, rfl, ht, hts⟩ := cons_of_map_word htokens
  obtain rfl := List.map_eq_nil_iff.1 hts
  have hkind : t.kind = .identifier := congrArg Word.kind ht
  have htext : t.text = n := congrArg Word.text ht
  exact ⟨[t], [], names_eq_ok.2 ⟨_, _, rfl, .last hkind hrest⟩, by simp [htext], rfl⟩

theorem reads_names (n : String) :
    Parser.Reads names [⟨.identifier, n⟩] (fun ts => ts.map Token.text = [n]) (· ≠ some .comma) :=
  (reports_names n).imp (fun _ _ h => h.1) fun _ h => h

/-- A field in words: its name if it has one, its type and its tag if it has one. -/
theorem lexemes_field (name : Option String) (t : GoType) (tag : Option String) :
    lexemes (fieldPieces name (t.pieces qualifier) tag) =
      (name.elim [] fun n => [⟨.identifier, n⟩]) ++
        (t.words qualifier ++ (tag.elim [] fun t => [⟨.string, t⟩])) := by
  cases name <;> cases tag <;> simp [fieldPieces, lexemes]

/-- What stands behind the type of a field: its tag, or what ends the line. -/
theorem endsType_leading_tag (tag : Option String) {next : Option Kind} (h : endsItem next) :
    endsType (leading (tag.elim [] fun t => [⟨.string, t⟩]) next) = true := by
  cases tag with
  | none => exact endsType_of_endsItem h
  | some t => rfl

/-- The name of a field is told from an embedded type by what the type of the field begins with. -/
theorem reads_namedField {n : String} {t : GoType} (tag : Option String)
    (htype : ReadsBack qualifier settle type t) :
    (fields type).Reads
      (⟨.identifier, n⟩ :: (t.words qualifier ++ (tag.elim [] fun t => [⟨.string, t⟩])))
      (· = [⟨some n, t.settled settle, tag⟩]) endsItem := by
  obtain ⟨w, ws, hw, hstarts⟩ := t.start_words qualifier
  have hnot : endsEmbedded w.kind = false := by
    cases hk : w.kind <;> first | rfl | simp_all [startsResult]
  have hread : (namedFields type).Reads ([⟨.identifier, n⟩] ++
      (t.words qualifier ++ (tag.elim [] fun t => [⟨.string, t⟩])))
      (· = [⟨some n, t.settled settle, tag⟩]) endsItem := by
    refine (reads_names n).bind (fun next _ => ?_) fun ts hts => ?_
    · rw [hw]
      intro h
      have hk : w.kind = .comma := by simpa using h
      rw [hk] at hstarts
      cases hstarts
    refine htype.bind (fun _ => endsType_leading_tag tag) ?_
    rintro _ rfl
    refine (reads_tag tag).map ?_
    rintro _ rfl
    obtain ⟨t, rfl, rfl⟩ := List.map_eq_singleton_iff.1 hts
    exact .pure rfl
  rw [hw] at hread ⊢
  refine .peek fun next _ => .peek_one fun next _ => ?_
  rw [if_neg (by simp [hnot])]
  exact hread

/-- An embedded field is a name, two names with a dot, or a pointer to one of these. -/
theorem reads_embedded (hreadable : Readable scope qualifier settle named length) {t : GoType}
    (hembeddable : t.isEmbeddable = true) (hproper : t.Proper named length) (tag : Option String)
    (htype : ReadsBack qualifier settle type t) :
    (fields type).Reads (t.words qualifier ++ (tag.elim [] fun t => [⟨.string, t⟩]))
      (· = [⟨none, t.settled settle, tag⟩]) endsItem := by
  have hread : (embeddedField type).Reads
      (t.words qualifier ++ (tag.elim [] fun t => [⟨.string, t⟩]))
      (· = [⟨none, t.settled settle, tag⟩]) endsItem := by
    refine htype.bind (fun _ => endsType_leading_tag tag) ?_
    rintro _ rfl
    refine (reads_tag tag).map ?_
    rintro _ rfl
    exact .pure rfl
  refine .peek fun next hnext => ?_
  rcases t.words_cases hreadable hproper with ⟨n, hn, -⟩ | ⟨q, d, n, package, hq, -⟩ |
    ⟨w, ws, hw, hkind, hstarts, hstar⟩
  · rw [hn] at hread ⊢
    refine .peek_one fun next hnext => ?_
    have hembedded : (leading (tag.elim [] fun t => [⟨.string, t⟩]) next).any endsEmbedded := by
      cases tag with
      | none => rcases hnext with rfl | rfl <;> rfl
      | some t => rfl
    rw [if_pos (by simpa using hembedded)]
    exact hread
  · rw [hq] at hread ⊢
    exact .peek_one fun next _ => hread
  · rw [hw] at hread ⊢
    rw [List.cons_append, leading_cons, hstar hembeddable]
    exact hread

/-- **A field is read as the one it was written for.** -/
theorem reads_field (hreadable : Readable scope qualifier settle named length) {f : Field}
    (hf : f.Proper) (hproper : f.type.Proper named length)
    (htype : ReadsBack qualifier settle type f.type) :
    (fields type).Reads (lexemes (fieldPieces f.name (f.type.pieces qualifier) f.tag))
      (· = [f.mapType (GoType.settled settle)]) endsItem := by
  obtain ⟨name, t, tag⟩ := f
  rw [lexemes_field]
  cases name with
  | some n => exact reads_namedField tag htype
  | none => exact reads_embedded hreadable (hf.embedded rfl) hproper tag htype

/-- **A struct body is read as the fields it was written for.** -/
theorem reads_structBody (hreadable : Readable scope qualifier settle named length)
    {fs : List Field} (hfields : ∀ f ∈ fs, f.Proper)
    (hproper : ∀ f ∈ fs, f.type.Proper named length)
    (htype : ∀ f ∈ fs, ReadsBack qualifier settle type f.type) :
    (structBody type).Reads (lexemes (bodyPieces (Field.piecesAll qualifier fs)))
      (· = fs.map (Field.mapType (GoType.settled settle))) follow := by
  rw [lexemes_body, Field.piecesAll_eq, List.map_map]
  refine .expect rfl fun _ _ => ?_
  have hbraced : (bounded (braced (fields type))).Reads
      (listed ⟨.semicolon, ";"⟩ ⟨.rightBrace, "\x7d"⟩ (fs.map (lexemes ∘ fun f =>
        fieldPieces f.name (f.type.pieces qualifier) f.tag)))
      (List.Forall₂ (fun f b => b = [f.mapType (GoType.settled settle)]) fs) follow := by
    -- a field begins with its name, and an embedded one with its type
    refine .bounded fun n hn => reads_braced (fun f hf => ?_) (fun f hf => ?_) hn
    · exact reads_field hreadable (hfields f hf) (hproper f hf) (htype f hf)
    · obtain ⟨w, ws, hw, hstarts⟩ := f.type.start_words qualifier
      rw [Function.comp_apply, lexemes_field]
      cases f.name with
      | some n => exact ⟨_, _, rfl, by simp, by simp⟩
      | none =>
        rw [Option.elim_none, List.nil_append, hw]
        refine ⟨w, _, rfl, fun h => ?_, fun h => ?_⟩ <;>
        · rw [h] at hstarts
          cases hstarts
  refine hbraced.map fun lines hlines => .pure ?_
  rw [eq_map_of_forall₂ hlines, ← List.flatMap_def, List.map_eq_flatMap]

/-! ### Array lengths -/

/-- An array length of one word, up to the bracket behind it. -/
theorem reads_arrayLength {n : String} (hn : kindOf n = .number ∨ kindOf n = .identifier)
    (bracket : String) :
    arrayLength.Reads [⟨kindOf n, n⟩, ⟨.rightBracket, bracket⟩] (· = n) follow := by
  intro tokens rest htokens _
  obtain ⟨t, ts, rfl, ht, hts⟩ := cons_of_map_word htokens
  obtain ⟨u, us, rfl, hu, hus⟩ := cons_of_map_word hts
  obtain rfl := List.map_eq_nil_iff.1 hus
  have hkind : t.kind = kindOf n := congrArg Word.kind ht
  have htext : t.text = n := congrArg Word.text ht
  have hbracket : u.kind = .rightBracket := congrArg Word.kind hu
  -- neither of the two texts that are refused is a number or a name
  have hne : n ≠ "" ∧ n ≠ "..." := by
    constructor <;> rintro rfl <;> revert hn <;> decide +kernel
  refine ⟨n, [], ?_, rfl⟩
  have htokens : lengthTokens 0 (t :: u :: rest) = some ([t], rest) := by
    rcases hn with hn | hn <;> simp [lengthTokens, hkind, hn, hbracket]
  change arrayLength (t :: u :: rest) = _
  rw [arrayLength_of_found htokens]
  simp [htext, hne]

end

/-! ### Types -/

/-- A list has more words than any of its entries. -/
theorem length_listed (separator ending : Word) {wss : List (List Word)} {words : List Word}
    (h : words ∈ wss) : words.length < (listed separator ending wss).length := by
  induction wss with
  | nil => cases h
  | cons ws wss ih =>
    rw [listed_cons, List.length_append]
    rcases List.mem_cons.1 h with rfl | h
    -- the first entry has at least the end of the list behind it
    · split <;> simp
    · have hlt := ih h
      have hne : wss.isEmpty = false := by cases wss <;> simp_all
      rw [hne]
      simp
      omega

/-- The parentheses around a list are two more words. -/
theorem length_list {pss : List (List Piece)} {ps : List Piece} (h : ps ∈ pss) :
    (lexemes ps).length + 1 < (lexemes (listPieces pss)).length := by
  have hlt := length_listed ⟨.comma, ","⟩ ⟨.rightParen, ")"⟩
    (List.mem_map_of_mem (f := lexemes) h)
  rw [lexemes_list, List.length_cons]
  omega

/-- A body has more words than any of its items. -/
theorem length_body {pss : List (List Piece)} {ps : List Piece} (h : ps ∈ pss) :
    (lexemes ps).length < (lexemes (bodyPieces pss)).length := by
  have hlt := length_listed ⟨.semicolon, ";"⟩ ⟨.rightBrace, "\x7d"⟩
    (List.mem_map_of_mem (f := lexemes) h)
  rw [lexemes_body, List.length_cons]
  omega

/-- The type of each parameter is the type of a hooked one. -/
theorem exists_hookedParam (variadic : Bool) {params : List Param} {p : Param} (h : p ∈ params) :
    ∃ q ∈ hookedParams variadic params, q.type = p.type := by
  have hmem : p.type ∈ (hookedParams variadic params).map HookedParam.type := by
    rw [type_hookedParams]
    exact List.mem_map_of_mem h
  exact List.mem_map.1 hmem

section

variable (qualifier : PackageId → String)

/-- The pieces of a parameter have the words of its type, or one less where dots stand for a slice.
-/
theorem HookedParam.length_pieces (p : HookedParam) :
    (lexemes (p.type.pieces qualifier)).length ≤ (lexemes (p.pieces qualifier)).length + 1 := by
  have hname (ps : List Piece) : (lexemes ps).length ≤ (lexemes (paramPieces p.name ps)).length := by
    unfold paramPieces
    split <;> simp [lexemes]
  unfold HookedParam.pieces
  split
  next elem hslice _ =>
    have hle := hname (.dots :: elem.pieces qualifier)
    simp only [hslice, GoType.pieces, lexemes, List.length_cons] at hle ⊢
    omega
  next =>
    have hle := hname (p.type.pieces qualifier)
    omega

/-- A signature has more words than each type in it. -/
theorem Signature.length_words {s : Signature} {t : GoType} (h : t ∈ s.types) :
    (lexemes (t.pieces qualifier)).length < (lexemes (s.pieces qualifier)).length := by
  rw [Signature.pieces_eq, lexemes_append, List.length_append]
  -- the type is that of a parameter or that of a result
  rcases Signature.mem_types.1 h with ⟨p, hp, rfl⟩ | ⟨p, hp, rfl⟩
  · obtain ⟨q, hq, hqp⟩ := exists_hookedParam s.variadic hp
    have hlength := q.length_pieces qualifier
    have hlist := length_list (List.mem_map_of_mem (f := HookedParam.pieces qualifier) hq)
    rw [hqp] at hlength
    omega
  · have hmem := List.mem_map_of_mem
      (f := fun p : Param => paramPieces p.name (p.type.pieces qualifier)) hp
    have hlength : (lexemes (p.type.pieces qualifier)).length ≤
        (lexemes (paramPieces p.name (p.type.pieces qualifier))).length := by
      unfold paramPieces
      split <;> simp [lexemes]
    have hlist := length_list hmem
    -- a single result stands alone, but then the parentheses of the parameters count
    have hparens : 2 ≤ (lexemes (listPieces
        ((hookedParams s.variadic s.params).map (HookedParam.pieces qualifier)))).length := by
      rw [lexemes_list, listed]
      simp
    have hspace (ps : List Piece) : lexemes (.space :: ps) = lexemes ps := rfl
    unfold resultPieces
    split
    next hpieces =>
      rw [hpieces, List.mem_singleton] at hmem
      rw [hspace, ← hmem]
      omega
    next hresults => rw [hresults] at hp; cases hp
    next =>
      rw [hspace]
      omega

/-- A type has more words than the types inside it. -/
theorem GoType.length_words_lt {t s : GoType} (h : s ∈ t.components) :
    (lexemes (s.pieces qualifier)).length < (lexemes (t.pieces qualifier)).length := by
  -- each constructor adds a word of its own to those of its parts
  cases t with
  | basic | named => cases h
  | pointer elem | slice elem | array _ elem =>
    obtain rfl := List.mem_singleton.1 h
    simp only [pieces, lexemes, List.length_cons]
    omega
  | map key value =>
    simp only [pieces, lexemes, lexemes_append, List.length_cons, List.cons_append,
      List.length_append]
    rcases List.mem_cons.1 h with rfl | h
    · omega
    · obtain rfl := List.mem_singleton.1 h
      omega
  | chan direction elem =>
    obtain rfl := List.mem_singleton.1 h
    cases direction with
    | both =>
      rw [pieces, chanPieces]
      split <;> simp only [List.cons_append, lexemes, lexemes_append, List.length_cons,
        List.length_append] <;> omega
    | send | receive =>
      simp only [pieces, chanPieces, lexemes, List.length_cons]
      omega
  | func signature =>
    have hlt := Signature.length_words qualifier h
    simp only [pieces, lexemes, List.length_cons]
    omega
  | interface body =>
    obtain ⟨methods, embeds⟩ := body
    simp only [pieces, lexemes, List.length_cons, Method.piecesAll_eq, piecesAll_eq]
    rcases List.mem_append.1 h with h | h
    · obtain ⟨m, hm, hs⟩ := List.mem_flatMap.1 h
      have hlt := Signature.length_words qualifier hs
      have hbody := length_body (List.mem_append_left (embeds.map (pieces qualifier))
        (List.mem_map_of_mem (f := fun m : Method => .name m.name :: m.signature.pieces qualifier)
          hm))
      simp only [lexemes, List.length_cons] at hbody
      omega
    · have hbody := length_body (List.mem_append_right
        (methods.map fun m => .name m.name :: m.signature.pieces qualifier)
        (List.mem_map_of_mem (f := pieces qualifier) h))
      dsimp only at hbody
      omega
  | struct fields =>
    obtain ⟨f, hf, rfl⟩ := List.mem_map.1 h
    have hbody := length_body (List.mem_map_of_mem
      (f := fun f : Field => fieldPieces f.name (f.type.pieces qualifier) f.tag) hf)
    rw [lexemes_field, List.length_append, List.length_append, words] at hbody
    simp only [pieces, lexemes, List.length_cons, Field.piecesAll_eq]
    omega

/-- A type has at least as many words as any type at any depth in it. -/
theorem GoType.length_words_le {t s : GoType} (h : t.Has s) :
    (lexemes (s.pieces qualifier)).length ≤ (lexemes (t.pieces qualifier)).length := by
  induction h with
  | self => exact Nat.le_refl _
  | inside hc _ ih => exact ih.trans (length_words_lt qualifier hc).le

end

/-! ### One level of a type

A budget of one level more is spent on the construct at hand. What is left has to be enough for the
types inside it, and this is all that the lemmas below ask for. -/

section

variable {scope : Scope} {qualifier : PackageId → String} {settle : PackageId → PackageId}
  {named : PackageId → String → Prop} {length : String → Prop} {n : Nat} {elem : GoType}

/-- A predeclared type is read back from its name. -/
theorem readsBack_basic {name : String} (hname : name ∈ predeclared) :
    ReadsBack qualifier settle (typeWithin scope (n + 1)) (.basic name) := by
  have hread : scope.typeName.Reads [⟨.identifier, name⟩] (· = scope.meaning name)
    (endsType ·) := reads_typeName_local name
  rw [Scope.meaning, if_pos hname] at hread
  have hwords : (GoType.basic name).words qualifier = [⟨.identifier, name⟩] := by
    simp [GoType.words, GoType.pieces, lexemes]
  rw [ReadsBack, hwords]
  exact .peek fun _ _ => hread

/-- A named type is read back from one name, or from two with a dot between them. -/
theorem readsBack_named (hreadable : Readable scope qualifier settle named length)
    {package : PackageId} {name : String} (h : (GoType.named package name).Proper named length) :
    ReadsBack qualifier settle (typeWithin scope (n + 1)) (.named package name) := by
  rw [ReadsBack]
  rcases GoType.words_cases hreadable h with ⟨n, hn, hmeaning, -⟩ |
    ⟨q, d, n, package, hq, himport, hmeaning, -⟩ | ⟨w, ws, hw, hne, -⟩
  · rw [hn, hmeaning]
    exact .peek fun _ _ => reads_typeName_local n
  · rw [hq, hmeaning]
    exact .peek fun _ _ => reads_typeName_qualified himport n d
  · rw [GoType.words, GoType.pieces, qualifiedPieces] at hw
    split at hw <;> exact absurd (congrArg Word.kind (List.cons.inj hw).1.symm) hne

/-- The star in front of a pointer is read, and then its element type. -/
theorem readsBack_pointer (helem : ReadsBack qualifier settle (typeWithin scope n) elem) :
    ReadsBack qualifier settle (typeWithin scope (n + 1)) (.pointer elem) := by
  refine .peek fun _ _ => .skip (helem.map ?_)
  rintro _ rfl
  exact .pure rfl

/-- The two brackets in front of a slice are read, and then its element type. -/
theorem readsBack_slice (helem : ReadsBack qualifier settle (typeWithin scope n) elem) :
    ReadsBack qualifier settle (typeWithin scope (n + 1)) (.slice elem) := by
  refine .peek fun _ _ => .skip (.accept_eq rfl (helem.map ?_))
  rintro _ rfl
  exact .pure rfl

/-- A length is one token, and no bracket: this tells an array from a slice. -/
theorem readsBack_array {l : String} (hlength : kindOf l = .number ∨ kindOf l = .identifier)
    (helem : ReadsBack qualifier settle (typeWithin scope n) elem) :
    ReadsBack qualifier settle (typeWithin scope (n + 1)) (.array l elem) := by
  have hwords : (GoType.array l elem).words qualifier =
      ⟨.leftBracket, "["⟩ :: ([⟨kindOf l, l⟩, ⟨.rightBracket, "]"⟩] ++ elem.words qualifier) := by
    simp [GoType.words, GoType.pieces, lexemes]
  have hread : arrayLength.Reads [⟨kindOf l, l⟩, ⟨.rightBracket, "]"⟩] (· = l) fun _ => True :=
    reads_arrayLength hlength "]"
  rw [ReadsBack, hwords]
  refine .peek fun _ _ => .skip (.accept_ne ?_ (hread.bind (fun _ _ => trivial) ?_))
  · rintro next - hkind
    have hk : kindOf l = .rightBracket := by simpa using hkind
    simp [hk] at hlength
  · rintro _ rfl
    refine helem.map ?_
    rintro _ rfl
    exact .pure rfl

/-- The key of a map ends before a bracket, so the bracket is not read with it. -/
theorem readsBack_map {key value : GoType}
    (hkey : ReadsBack qualifier settle (typeWithin scope n) key)
    (hvalue : ReadsBack qualifier settle (typeWithin scope n) value) :
    ReadsBack qualifier settle (typeWithin scope (n + 1)) (.map key value) := by
  have hwords : (GoType.map key value).words qualifier =
      ⟨.keyword .mapKw, "map"⟩ :: ⟨.leftBracket, "["⟩ :: (key.words qualifier ++
        ⟨.rightBracket, "]"⟩ :: value.words qualifier) := by
    simp [GoType.words, GoType.pieces, lexemes, Keyword.text]
  rw [ReadsBack, hwords]
  refine .peek fun _ _ => .skip (.expect rfl fun _ _ => hkey.bind (fun _ _ => rfl) ?_)
  rintro _ rfl
  refine .expect rfl fun _ _ => hvalue.map ?_
  rintro _ rfl
  exact .pure rfl

/-- A type in parentheses is the type itself, one level deeper. -/
theorem reads_parenthesized (helem : ReadsBack qualifier settle (typeWithin scope n) elem) :
    (typeWithin scope (n + 1)).Reads
      (⟨.leftParen, "("⟩ :: (elem.words qualifier ++ [⟨.rightParen, ")"⟩]))
      (· = elem.settled settle) (endsType ·) := by
  refine .peek fun _ _ => .skip (helem.bind (fun _ _ => rfl) ?_)
  rintro _ rfl
  exact .expect rfl fun _ _ => .pure rfl

/-- A channel for both directions. The arrow of a receiving channel inside it would be taken for its
own, and so there are parentheses around that one. -/
theorem readsBack_chan_both (helem : ReadsBack qualifier settle (typeWithin scope n) elem)
    (hparens : elem.isReceiver = true →
      ∃ k, n = k + 1 ∧ ReadsBack qualifier settle (typeWithin scope k) elem) :
    ReadsBack qualifier settle (typeWithin scope (n + 1)) (.chan .both elem) := by
  rw [ReadsBack]
  cases hreceiver : elem.isReceiver with
  | true =>
    have hwords : (GoType.chan .both elem).words qualifier =
        ⟨.keyword .chanKw, "chan"⟩ :: ⟨.leftParen, "("⟩ :: (elem.words qualifier ++
          [⟨.rightParen, ")"⟩]) := by
      simp [GoType.words, GoType.pieces, chanPieces, hreceiver, lexemes, Keyword.text]
    obtain ⟨k, rfl, hinner⟩ := hparens hreceiver
    rw [hwords]
    refine .peek fun _ _ => .skip (.accept_ne (by simp) ((reads_parenthesized hinner).map ?_))
    rintro _ rfl
    exact .pure rfl
  | false =>
    have hwords : (GoType.chan .both elem).words qualifier =
        ⟨.keyword .chanKw, "chan"⟩ :: elem.words qualifier := by
      simp [GoType.words, GoType.pieces, chanPieces, hreceiver, lexemes, Keyword.text]
    rw [hwords]
    refine .peek fun _ _ => .skip (.accept_ne (fun next _ hkind => ?_) (helem.map ?_))
    · rw [elem.isReceiver_of_leading hkind] at hreceiver
      cases hreceiver
    · rintro _ rfl
      exact .pure rfl

/-- The arrow behind the keyword makes it a channel that sends. -/
theorem readsBack_chan_send (helem : ReadsBack qualifier settle (typeWithin scope n) elem) :
    ReadsBack qualifier settle (typeWithin scope (n + 1)) (.chan .send elem) := by
  refine .peek fun _ _ => .skip (.accept_eq rfl (helem.map ?_))
  rintro _ rfl
  exact .pure rfl

/-- The arrow in front of the keyword makes it a channel that receives. -/
theorem readsBack_chan_receive (helem : ReadsBack qualifier settle (typeWithin scope n) elem) :
    ReadsBack qualifier settle (typeWithin scope (n + 1)) (.chan .receive elem) := by
  refine .peek fun _ _ => .skip (.expect rfl fun _ _ => helem.map ?_)
  rintro _ rfl
  exact .pure rfl

/-- A function type is its keyword and a signature. -/
theorem readsBack_func (hreadable : Readable scope qualifier settle named length) {s : Signature}
    (h : (GoType.func s).Proper named length)
    (hproper : ∀ c ∈ (GoType.func s).components, c.Proper named length)
    (htypes : ∀ c ∈ (GoType.func s).components, ∀ t, c.Has t →
      ReadsBack qualifier settle (typeWithin scope n) t) :
    ReadsBack qualifier settle (typeWithin scope (n + 1)) (.func s) := by
  have hsettled : (GoType.func s).settled settle = _ := GoType.relocate_eq (by simp)
  have hsignature := reads_signature hreadable h hproper htypes
  rw [ReadsBack, hsettled]
  refine .peek fun _ _ => .skip (hsignature.map ?_)
  rintro _ rfl
  exact .pure rfl

/-- An interface is its keyword and a body. -/
theorem readsBack_interface (hreadable : Readable scope qualifier settle named length)
    {body : Interface} (h : (GoType.interface body).Proper named length)
    (hproper : ∀ c ∈ (GoType.interface body).components, c.Proper named length)
    (htypes : ∀ c ∈ (GoType.interface body).components, ∀ t, c.Has t →
      ReadsBack qualifier settle (typeWithin scope n) t) :
    ReadsBack qualifier settle (typeWithin scope (n + 1)) (.interface body) := by
  have hsettled : (GoType.interface body).settled settle = _ := GoType.relocate_eq (by simp)
  have hbody : (interfaceBody scope (typeWithin scope n)).Reads _ _ (endsType ·) :=
    reads_interfaceBody hreadable (fun m hm => (h m hm).2) hproper htypes
  rw [ReadsBack, hsettled]
  cases body
  refine .peek fun _ _ => .skip (hbody.map ?_)
  rintro _ rfl
  exact .pure rfl

/-- A struct is its keyword and a body. -/
theorem readsBack_struct (hreadable : Readable scope qualifier settle named length)
    {fields : List Field} (h : (GoType.struct fields).Proper named length)
    (hproper : ∀ c ∈ (GoType.struct fields).components, c.Proper named length)
    (htypes : ∀ c ∈ (GoType.struct fields).components, ∀ t, c.Has t →
      ReadsBack qualifier settle (typeWithin scope n) t) :
    ReadsBack qualifier settle (typeWithin scope (n + 1)) (.struct fields) := by
  have hsettled : (GoType.struct fields).settled settle = _ := GoType.relocate_eq (by simp)
  have hbody : (structBody (typeWithin scope n)).Reads _ _ (endsType ·) :=
    reads_structBody hreadable h (fun f hf => hproper _ (List.mem_map_of_mem hf))
      fun f hf => htypes _ (List.mem_map_of_mem hf) _ (.self _)
  rw [ReadsBack, hsettled]
  refine .peek fun _ _ => .skip (hbody.map ?_)
  rintro _ rfl
  exact .pure rfl

/-- **Types are read back**: from the words of a well-formed type, and with a budget of more levels
than it has words, the type itself is read, with its packages settled. -/
theorem reads_typeWithin (hreadable : Readable scope qualifier settle named length) {t : GoType}
    (h : t.WellFormed named length) {n : Nat}
    (hn : (lexemes (t.pieces qualifier)).length < n) :
    ReadsBack qualifier settle (typeWithin scope n) t := by
  induction t using GoType.partInduction generalizing n with
  | h t ih =>
    obtain ⟨n, rfl⟩ := Nat.exists_eq_succ_of_ne_zero (Nat.ne_zero_of_lt hn)
    have hparts {budget : Nat} {c : GoType} (hc : c ∈ t.components) {s : GoType} (hs : c.Has s)
        (hlt : (lexemes (c.pieces qualifier)).length < budget) :
        ReadsBack qualifier settle (typeWithin scope budget) s :=
      ih c hc s hs (fun r hr => h r (.inside hc (hs.trans hr)))
        ((GoType.length_words_le qualifier hs).trans_lt hlt)
    -- a type has more words than each type inside it, so the budget goes down with the words
    have hinner (c : GoType) (hc : c ∈ t.components) (s : GoType) (hs : c.Has s) :
        ReadsBack qualifier settle (typeWithin scope n) s :=
      hparts hc hs ((GoType.length_words_lt qualifier hc).trans_le (Nat.lt_succ_iff.1 hn))
    have hproper (c : GoType) (hc : c ∈ t.components) : c.Proper named length :=
      (h.component hc).proper
    cases t with
    | basic name => exact readsBack_basic h.proper
    | named package name => exact readsBack_named hreadable h.proper
    | pointer elem => exact readsBack_pointer (hinner elem (List.mem_singleton_self _) elem (.self _))
    | slice elem => exact readsBack_slice (hinner elem (List.mem_singleton_self _) elem (.self _))
    | array l elem =>
      exact readsBack_array (hreadable.length h.proper)
        (hinner elem (List.mem_singleton_self _) elem (.self _))
    | map key value =>
      exact readsBack_map (hinner key (by simp [GoType.components]) key (.self _))
        (hinner value (by simp [GoType.components]) value (.self _))
    | chan direction elem =>
      have helem := hinner elem (List.mem_singleton_self _) elem (.self _)
      cases direction with
      | both =>
        refine readsBack_chan_both helem fun hreceiver => ?_
        -- the parentheses cost a level of their own, and they are two words
        rw [GoType.pieces, chanPieces, if_pos hreceiver] at hn
        simp only [lexemes, lexemes_append, List.length_cons, List.length_append, List.length_nil,
          List.cons_append] at hn
        obtain ⟨k, rfl⟩ : ∃ k, n = k + 1 := Nat.exists_eq_succ_of_ne_zero (by omega)
        exact ⟨k, rfl, hparts (List.mem_singleton_self _) (.self _) (by omega)⟩
      | send => exact readsBack_chan_send helem
      | receive => exact readsBack_chan_receive helem
    | func s => exact readsBack_func hreadable h.proper hproper hinner
    | interface body => exact readsBack_interface hreadable h.proper hproper hinner
    | struct fields => exact readsBack_struct hreadable h.proper hproper hinner

end

end Multicast
