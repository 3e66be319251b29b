import Multicast.Proofs.Spelling
import Multicast.Proofs.Reads

/-!
# What parsers make of a text

`p.Yields post` says of a parser that whatever it reads from the tokens of a text, it leaves a
suffix of them, and its value and the references it reports have a property. Nothing is said of
texts that it does not read.

What is to be said of the readers of types is always the same, and `Scope.Builds` says it: the types
are well-formed, and the references are the names that the types mention of the own package, no more
and no fewer. A parameter list builds its types in two steps, so the notion is relative to types
that were built before.

## Three notions for one purpose

A parser may say something of what it reads, and of the references that it reports; this is `Yields`. Many
parsers report nothing, and for them a shorter notion is enough (`Quiet`), which has its own rules and
fits in where the first one is asked for. The third, `Scope.Builds`, is the property itself: which types
have been built, from which others, and with which references. References add up as types are put
together, and a type that is put together mentions what its parts mention.
-/

namespace Multicast.Syntax

open Source

/-! ### Tokens of a text

That a token is a word of its kind is known of the tokens of a text only. So the tokens are asked to be of
a text, and this is passed on to whatever a parser leaves. -/

/-- Tokens that a text can have. -/
def Lexed (tokens : List Token) : Prop :=
  ∀ t ∈ tokens, t.word.IsLexed

/-- What is left of a text's tokens are tokens that a text can have. -/
theorem Lexed.of_suffix {tokens rest : List Token} (h : Lexed tokens) (hrest : rest <:+ tokens) :
    Lexed rest :=
  fun t ht => h t (hrest.subset ht)

/-- A token of a text, unless it is a semicolon, writes its kind. -/
theorem Lexed.writes {t : Token} {rest : List Token} (h : Lexed (t :: rest)) {kind : Kind}
    (hkind : t.kind = kind) (hne : kind ≠ .semicolon) : kind.Writes t.text := by
  rcases h t List.mem_cons_self with hend | hwrites
  · have hsemicolon : t.kind = .semicolon := congrArg Word.kind hend
    exact absurd (hkind.symm.trans hsemicolon) hne
  · exact hkind ▸ hwrites

namespace Parser

variable {α β : Type} {post : α → List Reference → Prop}

/-- **A parser yields**: what it reads from the tokens of a text has a property, and what it leaves
is a suffix of them. -/
def Yields (p : Parser α) (post : α → List Reference → Prop) : Prop :=
  ∀ tokens parsed, Lexed tokens → p tokens = .ok parsed →
    parsed.rest <:+ tokens ∧ post parsed.value parsed.references

/-- A parser that reports no references. -/
def Quiet (p : Parser α) (good : α → Prop) : Prop :=
  p.Yields fun a references => references = [] ∧ good a

namespace Yields

/-- What holds of a value and its references may be weakened. -/
theorem imp {p : Parser α} {post' : α → List Reference → Prop} (h : p.Yields post)
    (hpost : ∀ a references, post a references → post' a references) : p.Yields post' := by
  intro tokens parsed hlexed hok
  obtain ⟨hrest, hvalue⟩ := h tokens parsed hlexed hok
  exact ⟨hrest, hpost _ _ hvalue⟩

/-- A value is made without tokens and references. -/
theorem pure {a : α} (h : post a []) : (Pure.pure a : Parser α).Yields post := by
  rintro tokens _ - ⟨⟩
  exact ⟨List.suffix_refl _, h⟩

/-- Nothing is said of a parser that refuses every text. -/
theorem fails {p : Parser α} (h : ∀ tokens, ∃ e, p tokens = .error e) : p.Yields post := by
  intro tokens parsed _ hok
  obtain ⟨e, he⟩ := h tokens
  rw [he] at hok
  cases hok

/-- What is read behind a check. -/
theorem check {p q : Parser α} {b : Bool} (hp : ∀ tokens, ∃ e, p tokens = .error e)
    (hq : q.Yields post) : (if b then p else q).Yields post := by
  cases b with
  | true => exact fails hp
  | false => exact hq

/-- References of the second parser are reported behind those of the first. -/
theorem bind {p : Parser α} {f : α → Parser β} {post' : β → List Reference → Prop}
    (hp : p.Yields post)
    (hf : ∀ a references, post a references →
      (f a).Yields fun b more => post' b (references ++ more)) : (p >>= f).Yields post' := by
  intro tokens parsed hlexed hok
  obtain ⟨first, second, hfirst, hsecond, rfl⟩ := bind_eq_ok.1 hok
  obtain ⟨hrest, hvalue⟩ := hp tokens first hlexed hfirst
  obtain ⟨hrest', hvalue'⟩ :=
    hf _ _ hvalue first.rest second (hlexed.of_suffix hrest) hsecond
  exact ⟨hrest'.trans hrest, hvalue'⟩

/-- Behind a parser that reports nothing. -/
theorem after {p : Parser α} {good : α → Prop} {f : α → Parser β}
    {post' : β → List Reference → Prop} (hp : p.Quiet good)
    (hf : ∀ a, good a → (f a).Yields post') : (p >>= f).Yields post' := by
  refine bind hp ?_
  rintro a _ ⟨rfl, ha⟩
  exact hf a ha

/-- A value that is at hand goes straight to the parser behind it. -/
theorem pure_bind {a : α} {f : α → Parser β} {post' : β → List Reference → Prop}
    (h : (f a).Yields post') : ((Pure.pure a : Parser α) >>= f).Yields post' :=
  after (pure ⟨rfl, rfl⟩ : (Pure.pure a : Parser α).Quiet (· = a)) fun _ ha => ha ▸ h

/-- What is made of a value that was read. -/
theorem map {p : Parser α} {f : α → β} {post' : β → List Reference → Prop} (hp : p.Yields post)
    (hf : ∀ a references, post a references → post' (f a) references) :
    (p >>= fun a => Pure.pure (f a)).Yields post' := by
  refine bind hp fun a references ha => pure ?_
  rw [List.append_nil]
  exact hf a references ha

/-- A budget that depends on the tokens makes no difference if every budget does. -/
theorem bounded {p : Nat → Parser α} (h : ∀ n, (p n).Yields post) :
    (Parser.bounded p).Yields post :=
  fun tokens => h _ tokens

end Yields

/-- Looking ahead leaves all tokens, and reports nothing. -/
theorem quiet_peek (n : Nat) : (peek n).Quiet fun _ => True := by
  rintro tokens _ - ⟨⟩
  exact ⟨List.suffix_refl _, rfl, trivial⟩

theorem quiet_at (kind : Kind) : (at? kind).Quiet fun _ => True :=
  .after (quiet_peek 0) fun _ _ => .pure ⟨rfl, trivial⟩

/-- Skipping leaves all tokens but one. -/
theorem quiet_skip : skip.Quiet fun _ => True := by
  rintro tokens _ - ⟨⟩
  exact ⟨List.tail_suffix _, rfl, trivial⟩

theorem quiet_here : here.Quiet fun _ => True := by
  rintro tokens _ - ⟨⟩
  exact ⟨List.suffix_refl _, rfl, trivial⟩

/-- A token is accepted or left, and nothing is reported. -/
theorem quiet_accept (kind : Kind) : (accept kind).Quiet fun _ => True := by
  refine .after (quiet_at kind) fun found _ => ?_
  split
  · exact .after quiet_skip fun _ _ => .pure ⟨rfl, trivial⟩
  · exact .pure ⟨rfl, trivial⟩

/-- What is left behind semicolons is a suffix. -/
theorem quiet_skipSemicolons : skipSemicolons.Quiet fun _ => True := by
  rintro tokens _ - ⟨⟩
  exact ⟨List.dropWhile_suffix _, rfl, trivial⟩

/-- **A token that is expected writes its kind.** A semicolon need not: it may be the end of a line.
-/
theorem quiet_expect {kind : Kind} (what : Wanted) (hkind : kind ≠ .semicolon) :
    (expect kind what).Quiet fun t => kind.Writes t.text := by
  intro tokens parsed hlexed hok
  rcases tokens with _ | ⟨t, rest⟩
  · cases hok
  · rw [expect] at hok
    split at hok
    next ht =>
      cases hok
      exact ⟨List.suffix_cons t rest, rfl, hlexed.writes ht hkind⟩
    next => cases hok

/-- Of a semicolon only the kind is known. -/
theorem quiet_semicolon (what : Wanted) : (expect .semicolon what).Quiet fun _ => True := by
  intro tokens parsed _ hok
  rcases tokens with _ | ⟨t, rest⟩
  · cases hok
  · rw [expect] at hok
    split at hok
    next =>
      cases hok
      exact ⟨List.suffix_cons t rest, rfl, trivial⟩
    next => cases hok

theorem quiet_name : name.Quiet fun t => Kind.identifier.Writes t.text :=
  quiet_expect _ (by decide)

/-- There is at least one name, and all of them are names of the language. -/
theorem quiet_names :
    Quiet names fun ts => ts ≠ [] ∧ ∀ t ∈ ts, Kind.identifier.Writes t.text := by
  intro tokens parsed hlexed hok
  obtain ⟨ts, rest, rfl, hnames⟩ := names_eq_ok.1 hok
  clear hok
  induction hnames with
  | last ht =>
    refine ⟨List.suffix_cons _ _, rfl, by simp, ?_⟩
    simpa using hlexed.writes ht (by decide)
  | @more t comma tokens ts rest ht hcomma _ ih =>
    have hbehind : tokens <:+ t :: comma :: tokens := ⟨[t, comma], rfl⟩
    obtain ⟨hrest, -, -, hwrites⟩ := ih (hlexed.of_suffix hbehind)
    exact ⟨hrest.trans hbehind, rfl, by simp,
      List.forall_mem_cons.2 ⟨hlexed.writes ht (by decide), hwrites⟩⟩

end Parser

/-! ### Types and the references they leave -/

/-- The names of imported packages differ from the own package. -/
def Scope.Foreign (scope : Scope) : Prop :=
  ∀ i ∈ scope.imports, i.package ≠ scope.package

/-- The declared types that a file can mention: those of its own package, except under predeclared
names, and those of the packages that it imports under a name. -/
def Scope.Admits (scope : Scope) (package : PackageId) (name : String) : Prop :=
  Kind.identifier.Writes name ∧
    (package = scope.package ∧ name ∉ predeclared ∨
      ∃ i ∈ scope.imports, i.localName?.isSome ∧ i.package = package)

/-- One of these types mentions a declared type of a package. -/
def Mentions (package : PackageId) (types : List GoType) (name : String) : Prop :=
  ∃ t ∈ types, t.Has (.named package name)

/-- What types in a row mention is what the ones and the others mention. -/
theorem mentions_append {package : PackageId} {types types' : List GoType} {name : String} :
    Mentions package (types ++ types') name ↔
      Mentions package types name ∨ Mentions package types' name := by
  simp [Mentions, or_and_right, exists_or]

/-- A named type mentions itself if it belongs to the package. -/
theorem mentions_named {own package : PackageId} {n name : String} :
    Mentions own [.named package n] name ↔ package = own ∧ n = name := by
  constructor
  · rintro ⟨t, ht, hhas⟩
    obtain rfl := List.mem_singleton.1 ht
    rcases GoType.has_iff.1 hhas with heq | ⟨c, hc, -⟩
    · cases heq
      exact ⟨rfl, rfl⟩
    · cases hc
  · rintro ⟨rfl, rfl⟩
    exact ⟨_, List.mem_singleton.2 rfl, .self _⟩

/-- **Types built from others**: they are well-formed if the others are, and the own declared types
that they mention are the ones that the others mention, and the references. -/
structure Scope.Builds (scope : Scope) (base types : List GoType) (references : List Reference) :
    Prop where
  wellFormed : (∀ t ∈ base, t.WellFormed scope.Admits fun _ => True) →
    ∀ t ∈ types, t.WellFormed scope.Admits fun _ => True
  mentions : scope.Foreign → ∀ name, Mentions scope.package types name ↔
    Mentions scope.package base name ∨ name ∈ references.map Reference.name

namespace Scope.Builds

variable {scope : Scope} {base base' types types' : List GoType}
  {references references' : List Reference}

/-- The same types in another order, or more often, are built without any references. -/
theorem of_mem (h : ∀ t, t ∈ types ↔ t ∈ base) : scope.Builds base types [] where
  wellFormed hbase t ht := hbase t ((h t).1 ht)
  mentions _ name := by simp [Mentions, h]

theorem refl (types : List GoType) : scope.Builds types types [] :=
  of_mem fun _ => Iff.rfl

/-- Types are built in two steps: what the second step is based on is what the first one built. -/
theorem trans (h : scope.Builds base types references)
    (h' : scope.Builds types types' references') :
    scope.Builds base types' (references ++ references') where
  wellFormed hbase := h'.wellFormed (h.wellFormed hbase)
  mentions hforeign name := by
    rw [h'.mentions hforeign, h.mentions hforeign, List.map_append, List.mem_append, or_assoc]

/-- Types that are built side by side: their references are put together in the order of reading. -/
theorem append (h : scope.Builds base types references)
    (h' : scope.Builds base' types' references') :
    scope.Builds (base ++ base') (types ++ types') (references ++ references') where
  wellFormed hbase t ht := by
    rw [List.forall_mem_append] at hbase
    exact (List.mem_append.1 ht).elim (h.wellFormed hbase.1 t) (h'.wellFormed hbase.2 t)
  mentions hforeign name := by
    rw [mentions_append, mentions_append, h.mentions hforeign, h'.mentions hforeign,
      List.map_append, List.mem_append]
    exact or_or_or_comm

/-- A type is built from its components, unless it is a declared one. -/
theorem node {t : GoType} (hproper : t.Proper scope.Admits fun _ => True)
    (hnamed : ∀ package name, t ≠ .named package name) : scope.Builds t.components [t] [] where
  wellFormed hparts := by
    simpa using GoType.wellFormed_iff.2 ⟨hproper, hparts⟩
  mentions _ name := by
    have hself : GoType.named scope.package name ≠ t := fun h => hnamed _ _ h.symm
    simp [Mentions, GoType.has_iff (t := t), hself]

end Scope.Builds

/-! ### Type names -/

open Multicast.Syntax.Parser

/-- A reference is reported. -/
theorem yields_refer (reference : Reference) :
    (refer reference).Yields fun _ references => references = [reference] := by
  rintro tokens _ - ⟨⟩
  exact ⟨List.suffix_refl _, rfl⟩

section

variable {scope : Scope}

/-- A name that stands for an imported package is the local name of an import. -/
theorem Scope.import?_mem {q : String} {package : PackageId} (h : scope.import? q = some package) :
    ∃ i ∈ scope.imports, i.localName?.isSome ∧ i.package = package := by
  obtain ⟨i, hi, rfl⟩ := Option.map_eq_some_iff.1 h
  have hname : i.localName? = some q := by simpa using List.find?_some hi
  exact ⟨i, List.mem_reverse.1 (List.mem_of_find?_eq_some hi), by simp [hname], rfl⟩

/-- **A bare name** is a predeclared type, and then nothing is reported, or a declared one, and then
it is. -/
theorem yields_localType {name : String} (hname : Kind.identifier.Writes name) (pos : Position) :
    (scope.localType name pos).Yields fun t references =>
      scope.Builds [] [t] references ∧ t.isEmbeddable := by
  unfold Scope.localType
  split
  next hpredeclared =>
    exact .pure ⟨.node (t := .basic name) hpredeclared (by simp), rfl⟩
  next hpredeclared =>
    refine .bind (yields_refer _) ?_
    rintro _ _ rfl
    refine .pure ⟨⟨fun _ => ?_, fun _ n => ?_⟩, rfl⟩
    · simpa using ⟨hname, .inl ⟨rfl, hpredeclared⟩⟩
    · rw [mentions_named]
      simp [Mentions, eq_comm]

/-- A type name, bare or behind the name of an import, is a type that can be embedded. -/
theorem yields_typeName :
    scope.typeName.Yields fun t references =>
      scope.Builds [] [t] references ∧ t.isEmbeddable := by
  refine .after quiet_name fun first hfirst => .after (quiet_accept _) fun dotted _ => ?_
  -- no type arguments may follow
  have hplain (t : GoType) {references : List Reference}
      (h : scope.Builds [] [t] references ∧ t.isEmbeddable) (b : Bool) :
      Yields (if b then failAt first.pos .instantiation >>= fun _ : Unit => pure t else pure t)
        fun t' more => scope.Builds [] [t'] (references ++ more) ∧ t'.isEmbeddable :=
    .check (fun _ => ⟨_, rfl⟩) (.pure (by rwa [List.append_nil]))
  rcases dotted with _ | _
  · exact .bind (yields_localType hfirst first.pos) fun t references ht =>
      .after (quiet_at _) fun b _ => hplain t ht b
  · refine .after quiet_name fun second hsecond => ?_
    rcases hpackage : scope.import? first.text with _ | package
    · exact .fails fun _ => ⟨_, rfl⟩
    · have himport := Scope.import?_mem hpackage
      have hforeign : scope.Builds [] [.named package second.text] [] := by
        refine ⟨fun _ => by simpa using ⟨hsecond, .inr himport⟩, fun hforeign name => ?_⟩
        obtain ⟨i, hi, -, rfl⟩ := himport
        rw [mentions_named]
        simp [Mentions, hforeign i hi]
      exact .pure_bind (.after (quiet_at _) fun b _ => hplain _ ⟨hforeign, rfl⟩ b)

/-! ### Parameter lists

A list is read before it is known which of its names are types. So the references of lone entries come at
the end, with the types that they turn out to be. -/

/-- The types that an entry is written with. -/
def Entry.types : Entry → List GoType
  | .lone _ _ => []
  | .named _ _ type _ | .unnamed _ type _ => [type]

/-- The name that an entry is written with is a name. -/
def Entry.Proper : Entry → Prop
  | .lone name _ | .named name _ _ _ => Kind.identifier.Writes name
  | .unnamed _ _ _ => True

variable {type : Parser GoType}
  (htype : type.Yields fun t references => scope.Builds [] [t] references)

include htype

/-- An entry of a parameter list has a type that was read, or a name that is yet to be understood.
-/
theorem yields_entry :
    (Entry.parse type).Yields fun e references =>
      e.Proper ∧ scope.Builds [] e.types references := by
  intro tokens parsed hlexed hok
  rcases tokens with _ | ⟨t, rest⟩
  · cases hok
  · have hrest : rest <:+ t :: rest := List.suffix_cons t rest
    rw [Entry.parse] at hok
    split at hok
    next hlone =>
      cases hok
      exact ⟨hrest, hlexed.writes hlone.1 (by decide), .refl []⟩
    next =>
      split at hok
      next hnamed =>
        have hentry : Yields (accept .ellipsis >>= fun dots => type >>= fun written =>
            pure (Entry.named t.text dots written t.pos)) fun e references =>
              e.Proper ∧ scope.Builds [] e.types references :=
          .after (quiet_accept _) fun dots _ => htype.map fun written references hwritten =>
            ⟨hlexed.writes hnamed.1 (by decide), hwritten⟩
        obtain ⟨hsuffix, hpost⟩ := hentry rest parsed (hlexed.of_suffix hrest) hok
        exact ⟨hsuffix.trans hrest, hpost⟩
      next =>
        have hentry : Yields (accept .ellipsis >>= fun dots => type >>= fun written =>
            pure (Entry.unnamed dots written t.pos)) fun e references =>
              e.Proper ∧ scope.Builds [] e.types references :=
          .after (quiet_accept _) fun dots _ => htype.map fun written references hwritten =>
            ⟨trivial, hwritten⟩
        exact hentry (t :: rest) parsed hlexed hok

/-- All entries are proper, and the types in them are built. -/
theorem yields_entries (n : Nat) :
    (Entry.parseAll type n).Yields fun es references =>
      (∀ e ∈ es, e.Proper) ∧ scope.Builds [] (es.flatMap Entry.types) references := by
  induction n with
  | zero => exact .fails fun _ => ⟨_, rfl⟩
  | succ n ih =>
    refine .after (quiet_accept _) fun closed _ => ?_
    split
    · exact .pure ⟨by simp, .refl []⟩
    · refine .bind (yields_entry htype) fun first references hfirst => ?_
      have hothers : Yields (Entry.parseAll type n >>= fun others => pure (first :: others))
          fun es more => (∀ e ∈ es, e.Proper) ∧
            scope.Builds [] (es.flatMap Entry.types) (references ++ more) := by
        refine ih.map fun others more hothers => ⟨?_, hfirst.2.append hothers.2⟩
        rintro e (_ | ⟨_, he⟩)
        · exact hfirst.1
        · exact hothers.1 e he
      refine .after (quiet_accept _) fun comma _ => ?_
      split
      · exact hothers
      · refine .after (quiet_at _) fun paren _ => ?_
        split
        · exact hothers
        · exact .fails fun _ => ⟨_, rfl⟩

end

section

variable {scope : Scope}

/-- Three dots stand for a slice. -/
theorem builds_written (t : GoType) (dots : Bool) :
    scope.Builds [t] [if dots then .slice t else t] [] := by
  cases dots with
  | true => exact .node (t := .slice t) trivial (by simp)
  | false => exact .refl _

/-- What a resolved list is like: its types are built from those of the entries, its parameters have
all names or none, and a variadic one ends in a slice. -/
structure ParameterList.Resolves (scope : Scope) (named : Bool) (base : List GoType)
    (list : ParameterList) (references : List Reference) : Prop where
  types : scope.Builds base (list.params.map Param.type) references
  names : ∀ p ∈ list.params, if named then Kind.identifier.Writes p.name else p.name = ""
  variadic : list.variadic → ∃ p ∈ list.params.getLast?, p.type.isSlice

/-- One step of resolving: further parameters in front of those that are resolved already. Three
dots are allowed in this step only if no parameter is behind it. -/
theorem ParameterList.Resolves.prepend {named : Bool} {base base' : List GoType}
    {list : ParameterList} {references references' : List Reference} (params : List Param)
    (dots : Bool) (htypes : scope.Builds base (params.map Param.type) references)
    (hnames : ∀ p ∈ params, if named then Kind.identifier.Writes p.name else p.name = "")
    (hdots : dots → list.params = [] ∧ ∃ p ∈ params.getLast?, p.type.isSlice)
    (hlist : list.Resolves scope named base' references') :
    ParameterList.Resolves scope named (base ++ base') ⟨params ++ list.params, dots || list.variadic⟩
      (references ++ references') where
  types := by
    rw [List.map_append]
    exact htypes.append hlist.types
  names p hp := (List.mem_append.1 hp).elim (hnames p) (hlist.names p)
  variadic hvariadic := by
    cases dots with
    | true =>
      obtain ⟨hnone, hlast⟩ := hdots rfl
      simpa [hnone] using hlast
    | false =>
      obtain ⟨p, hp, hslice⟩ := hlist.variadic hvariadic
      exact ⟨p, by simp [List.getLast?_append, Option.mem_def.1 hp], hslice⟩

/-- **Entries are resolved.** If the list has names, those that wait get the type of the next entry
with one; if it has none, each lone name is a type. The induction is on the entries, for any names
that wait. -/
theorem yields_resolve {allowDots named : Bool} {entries : List Entry} {waiting : List String}
    (hproper : ∀ e ∈ entries, e.Proper) (hwaiting : ∀ n ∈ waiting, Kind.identifier.Writes n)
    (hnamed : named = false → waiting = [] ∧ ∀ e ∈ entries, e.isNamed = false) :
    (resolve scope allowDots named entries waiting).Yields fun list references =>
      list.Resolves scope named (entries.flatMap Entry.types) references ∧
        (entries = [] → list.params = []) := by
  induction entries generalizing waiting with
  | nil =>
    cases waiting with
    | nil => exact .pure ⟨⟨.refl [], by simp, by simp⟩, fun _ => rfl⟩
    | cons n waiting => exact .fails fun _ => ⟨_, rfl⟩
  | cons e entries ih =>
    have hentries : ∀ e ∈ entries, e.Proper := fun e he => hproper e (List.mem_cons_of_mem _ he)
    have he := hproper e List.mem_cons_self
    have hunnamed : named = false → ∀ e ∈ entries, e.isNamed = false := fun h e he =>
      (hnamed h).2 e (List.mem_cons_of_mem _ he)
    -- three dots are read before the last entry only
    have hlast {dots : Bool}
        (hdots : ¬(dots && !(allowDots && entries.isEmpty && waiting.isEmpty)) = true) :
        dots → entries = [] := by
      rintro rfl
      simp at hdots
      exact hdots.1.2
    cases e with
    | lone name pos =>
      rw [resolve]
      cases named with
      | true =>
        refine (ih hentries ?_ (by simp)).imp fun list references hlist => ⟨hlist.1, by simp⟩
        simpa [or_imp, forall_and] using ⟨hwaiting, he⟩
      | false =>
        refine .bind (yields_localType he pos) fun t references ht => ?_
        refine (ih hentries hwaiting fun _ => ⟨(hnamed rfl).1, hunnamed rfl⟩).map
          fun list more hlist => ⟨?_, by simp⟩
        exact .prepend [⟨"", t⟩] false ht.1 (by simp) (by simp) hlist.1
    | named name dots type pos =>
      rw [resolve]
      split
      next => exact .fails fun _ => ⟨_, rfl⟩
      next hdots =>
        cases named with
        | false => cases (hnamed rfl).2 _ List.mem_cons_self
        | true =>
          refine (ih hentries (by simp) (by simp)).map fun list references hlist => ⟨?_, by simp⟩
          have hshared : scope.Builds [type] ((waiting.map fun n =>
              Param.mk n (if dots then .slice type else type)) ++
                [Param.mk name (if dots then .slice type else type)] |>.map Param.type) [] := by
            refine (builds_written type dots).trans (.of_mem fun t => ?_)
            generalize (if dots then GoType.slice type else type) = written
            simp [eq_comm]
          have hprepend := ParameterList.Resolves.prepend _ dots hshared ?_ ?_ hlist.1
          · simpa [Entry.types] using hprepend
          · simpa [or_imp, forall_and] using ⟨hwaiting, he⟩
          · rintro rfl
            exact ⟨hlist.2 (hlast hdots rfl), _, List.getLast?_concat, rfl⟩
    | unnamed dots type pos =>
      rw [resolve]
      split
      next => exact .fails fun _ => ⟨_, rfl⟩
      next hdots =>
        cases named with
        | true => exact .fails fun _ => ⟨_, rfl⟩
        | false =>
          refine (ih hentries hwaiting fun _ => ⟨(hnamed rfl).1, hunnamed rfl⟩).map
            fun list references hlist => ⟨?_, by simp⟩
          refine .prepend [⟨"", _⟩] dots (builds_written type dots) (by simp) ?_ hlist.1
          rintro rfl
          exact ⟨hlist.2 (hlast hdots rfl), _, rfl, rfl⟩

/-- A parameter list has all names or none, and three dots stand for a slice at its end. -/
theorem yields_parameters {type : Parser GoType}
    (htype : type.Yields fun t references => scope.Builds [] [t] references) (allowDots : Bool) :
    (parameters scope type allowDots).Yields fun list references =>
      scope.Builds [] (list.params.map Param.type) references ∧ Uniform list.params ∧
        (list.variadic → ∃ p ∈ list.params.getLast?, p.type.isSlice) := by
  refine .after (quiet_expect _ (by decide)) fun _ _ => ?_
  refine .bind (.bounded (yields_entries htype)) fun entries references hentries => ?_
  refine (yields_resolve hentries.1 (by simp) ?_).imp fun list more hlist => ⟨?_, ?_, ?_⟩
  · exact fun h => ⟨rfl, by simpa using h⟩
  · exact hentries.2.trans hlist.1.types
  · have hnames := hlist.1.names
    cases hnamed : entries.any Entry.isNamed with
    | true => exact .inr fun p hp => by simpa [hnamed] using hnames p hp
    | false => exact .inl fun p hp => by simpa [hnamed] using hnames p hp
  · exact hlist.1.variadic

/-! ### Signatures and interfaces -/

variable {type : Parser GoType}
  (htype : type.Yields fun t references => scope.Builds [] [t] references)

include htype

/-- A signature builds the types of its parameters and results. -/
theorem yields_signature :
    (signature scope type).Yields fun s references =>
      s.Proper ∧ scope.Builds [] s.types references := by
  refine .bind (yields_parameters htype true) fun list references hlist => ?_
  have hdone (results : List Param) (more : List Reference)
      (hresults : scope.Builds [] (results.map Param.type) more) (huniform : Uniform results) :
      Signature.Proper ⟨list.params, results, list.variadic⟩ ∧
        scope.Builds [] (Signature.types ⟨list.params, results, list.variadic⟩)
          (references ++ more) := by
    refine ⟨⟨hlist.2.1, huniform, hlist.2.2⟩, ?_⟩
    rw [Signature.types, List.map_append]
    exact hlist.1.append hresults
  refine .after (quiet_at _) fun paren _ => .after (quiet_peek 0) fun next _ => ?_
  split
  · refine .bind (yields_parameters htype false) fun results more hresults => .pure_bind (.pure ?_)
    rw [List.append_nil]
    exact hdone _ _ hresults.1 hresults.2.1
  · split
    · refine .bind htype fun result more hresult => .pure_bind (.pure ?_)
      rw [List.append_nil]
      exact hdone [⟨"", result⟩] more hresult (.inl (by simp))
    · exact .pure_bind (.pure (hdone [] [] (.refl []) (.inl (by simp))))

/-- The types of an element. -/
def Element.types : Element → List GoType
  | .method m => m.signature.types
  | .embed t => [t]

/-- A method has a name and a proper signature. -/
def Element.Proper : Element → Prop
  | .method m => Kind.identifier.Writes m.name ∧ m.signature.Proper
  | .embed _ => True

/-- A method or an embedded type is built from what is read. -/
theorem yields_element :
    (element scope type).Yields fun e references =>
      e.Proper ∧ scope.Builds [] e.types references := by
  refine .after (quiet_peek 0) fun first _ => .after (quiet_peek 1) fun second _ => ?_
  split
  · refine .after quiet_name fun declared hdeclared => ?_
    exact (yields_signature htype).map fun s references hs => ⟨⟨hdeclared, hs.1⟩, hs.2⟩
  · exact .fails fun _ => ⟨_, rfl⟩
  · refine .after quiet_here fun pos _ => .bind htype fun embedded references hembedded => ?_
    refine .after (quiet_at _) fun pipe _ => .check (fun _ => ⟨_, rfl⟩) (.pure ?_)
    rw [List.append_nil]
    exact ⟨trivial, hembedded⟩

end

section

variable {α : Type} {scope : Scope} {item : Parser α} {good : α → Prop} {types : α → List GoType}

/-- What stands between braces yields what its items yield. -/
theorem yields_braced
    (hitem : item.Yields fun a references => good a ∧ scope.Builds [] (types a) references) (n : Nat) :
    (braced item n).Yields fun items references =>
      (∀ a ∈ items, good a) ∧ scope.Builds [] (items.flatMap types) references := by
  induction n with
  | zero => exact .fails fun _ => ⟨_, rfl⟩
  | succ n ih =>
    refine .after quiet_skipSemicolons fun _ _ => .after (quiet_accept _) fun closed _ => ?_
    split
    · exact .pure ⟨by simp, .refl []⟩
    · refine .bind hitem fun first references hfirst => ?_
      have hothers : Yields (braced item n >>= fun others => pure (first :: others))
          fun items more => (∀ a ∈ items, good a) ∧
            scope.Builds [] (items.flatMap types) (references ++ more) := by
        refine ih.map fun others more hothers => ⟨?_, hfirst.2.append hothers.2⟩
        rintro a (_ | ⟨_, ha⟩)
        · exact hfirst.1
        · exact hothers.1 a ha
      refine .after (quiet_at _) fun brace _ => ?_
      split
      · exact hothers
      · exact .after (quiet_semicolon _) fun _ _ => hothers

end

section

variable {scope : Scope} {type : Parser GoType}
  (htype : type.Yields fun t references => scope.Builds [] [t] references)

include htype

/-- The methods and embedded types of an interface are built from its elements. -/
theorem yields_interfaceBody :
    (interfaceBody scope type).Yields fun body references =>
      scope.Builds [] [.interface body] references := by
  refine .after (quiet_expect _ (by decide)) fun _ _ => ?_
  refine (Yields.bounded (yields_braced (yields_element htype))).map
    fun elements references helements => ?_
  have hparts : scope.Builds (elements.flatMap Element.types)
      (GoType.interface (interfaceOf elements)).components [] := by
    refine .of_mem fun t => ?_
    simp only [GoType.components, interfaceOf, List.mem_append, List.mem_flatMap,
      List.mem_filterMap]
    constructor
    · rintro (⟨m, ⟨e, he, hm⟩, ht⟩ | ⟨e, he, hm⟩)
      · cases e <;> cases hm
        exact ⟨_, he, ht⟩
      · cases e <;> cases hm
        exact ⟨_, he, List.mem_singleton.2 rfl⟩
    · rintro ⟨e, he, ht⟩
      cases e with
      | method m => exact .inl ⟨m, ⟨_, he, rfl⟩, ht⟩
      | embed s =>
        obtain rfl := List.mem_singleton.1 ht
        exact .inr ⟨_, he, rfl⟩
  have hproper : (GoType.interface (interfaceOf elements)).Proper scope.Admits fun _ => True := by
    intro m hm
    obtain ⟨e, he, hm⟩ := List.mem_filterMap.1 hm
    cases e <;> cases hm
    exact helements.1 _ he
  have hall := (helements.2.trans hparts).trans (.node hproper (by simp))
  simpa using hall

end

/-! ### Structs -/

/-- A tag is a string literal of the language. -/
theorem quiet_tag : tag.Quiet fun o => ∀ t ∈ o, Kind.string.Writes t := by
  intro tokens parsed hlexed hok
  rcases tokens with _ | ⟨t, rest⟩
  · cases hok
    exact ⟨List.suffix_refl _, rfl, by simp⟩
  · rw [tag] at hok
    split at hok
    next hstring =>
      cases hok
      refine ⟨List.suffix_cons t rest, rfl, ?_⟩
      simpa using hlexed.writes hstring (by decide)
    next =>
      cases hok
      exact ⟨List.suffix_refl _, rfl, by simp⟩

/-- The fields of a line of a struct are proper, and their types are built. -/
def FieldsBuilt (scope : Scope) (fields : List Field) (references : List Reference) : Prop :=
  (∀ f ∈ fields, f.Proper) ∧ scope.Builds [] (fields.map Field.type) references

section

variable {scope : Scope} {type : Parser GoType}
  (htype : type.Yields fun t references => scope.Builds [] [t] references)

include htype

/-- Fields that share a type build it once, although each of them has it. -/
theorem yields_namedFields : (namedFields type).Yields (FieldsBuilt scope) := by
  refine .after quiet_names fun fields hfields => .bind htype fun shared references hshared => ?_
  refine .after quiet_tag fun tag htag => .pure ⟨?_, ?_⟩
  · intro f hf
    obtain ⟨t, ht, rfl⟩ := List.mem_map.1 hf
    exact ⟨by simpa using hfields.2 t ht, by simp, htag⟩
  · refine hshared.trans (.of_mem fun t => ?_)
    obtain ⟨u, hu⟩ := List.exists_mem_of_ne_nil fields hfields.1
    constructor
    · simp +contextual
    · simp only [List.mem_singleton, List.mem_map, exists_exists_and_eq_and]
      rintro rfl
      exact ⟨u, hu, rfl⟩

/-- An embedded field begins with a star or a name, and so its type can be embedded. -/
theorem yields_fields
    (hstart : ∀ tokens parsed, Lexed tokens → type tokens = .ok parsed →
      nextKind tokens = some .star ∨ nextKind tokens = some .identifier →
      parsed.value.isEmbeddable) :
    (fields type).Yields (FieldsBuilt scope) := by
  have hembedded {tokens : List Token} {parsed : Parsed (List Field)} (hlexed : Lexed tokens)
      (hnext : nextKind tokens = some .star ∨ nextKind tokens = some .identifier)
      (hok : embeddedField type tokens = .ok parsed) :
      parsed.rest <:+ tokens ∧ FieldsBuilt scope parsed.value parsed.references := by
    obtain ⟨first, _, hfirst, hbehind, rfl⟩ := bind_eq_ok.1 hok
    obtain ⟨hrest, hbuilds⟩ := htype tokens first hlexed hfirst
    have htag : Yields (tag >>= fun tag => pure [⟨none, first.value, tag⟩]) fun fs more =>
        FieldsBuilt scope fs (first.references ++ more) := by
      refine .after quiet_tag fun tag htag => .pure ⟨?_, by simpa using hbuilds⟩
      rintro f (_ | ⟨_, ⟨⟩⟩)
      exact ⟨by simp, fun _ => hstart tokens first hlexed hfirst hnext, htag⟩
    obtain ⟨hrest', hpost⟩ := htag first.rest _ (hlexed.of_suffix hrest) hbehind
    exact ⟨hrest'.trans hrest, hpost⟩
  intro tokens parsed hlexed hok
  have hpeek : peek 0 tokens = .ok ⟨nextKind tokens, [], tokens⟩ := by
    rw [nextKind, List.head?_eq_getElem?]
    rfl
  rw [fields, bind_of_ok hpeek] at hok
  obtain ⟨next, hnext⟩ : ∃ next, nextKind tokens = next := ⟨_, rfl⟩
  rw [hnext] at hok
  split at hok
  next => exact hembedded hlexed (.inl hnext) hok
  next =>
    rw [bind_of_ok (show peek 1 tokens = .ok ⟨_, [], tokens⟩ from rfl)] at hok
    split at hok
    · exact hembedded hlexed (.inr hnext) hok
    · exact yields_namedFields htype tokens parsed hlexed hok
  next => cases hok

/-- The fields of a struct are built line by line. What an embedded field may begin with is known by
the type reader, so it is asked for here. -/
theorem yields_structBody
    (hstart : ∀ tokens parsed, Lexed tokens → type tokens = .ok parsed →
      nextKind tokens = some .star ∨ nextKind tokens = some .identifier →
      parsed.value.isEmbeddable) :
    (structBody type).Yields fun fs references => scope.Builds [] [.struct fs] references := by
  refine .after (quiet_expect _ (by decide)) fun _ _ => ?_
  refine (Yields.bounded (yields_braced (yields_fields htype hstart))).map
    fun lines references hlines => ?_
  have hproper : (GoType.struct lines.flatten).Proper scope.Admits fun _ => True := by
    intro f hf
    obtain ⟨line, hline, hf⟩ := List.mem_flatten.1 hf
    exact hlines.1 line hline f hf
  have hparts : scope.Builds (lines.flatMap (List.map Field.type))
      (GoType.struct lines.flatten).components [] :=
    .of_mem (by simp [GoType.components])
  have hall := (hlines.2.trans hparts).trans (.node hproper (by simp))
  simpa using hall

end

/-! ### Types -/

/-- What is left behind an array length is a suffix. -/
theorem suffix_of_lengthTokens {depth : Nat} {tokens text rest : List Token}
    (h : lengthTokens depth tokens = some (text, rest)) : rest <:+ tokens := by
  induction tokens generalizing depth text rest with
  | nil => cases h
  | cons t tokens ih =>
    rw [lengthTokens] at h
    split at h
    next =>
      cases h
      exact List.suffix_cons t tokens
    next =>
      obtain ⟨⟨inner, behind⟩, hinner, heq⟩ := Option.map_eq_some_iff.1 h
      cases heq
      exact (ih hinner).trans (List.suffix_cons t tokens)

/-- An array length is kept as text, so the names in it are not reported. -/
theorem quiet_arrayLength : arrayLength.Quiet fun _ => True := by
  intro tokens parsed _ hok
  obtain ⟨inside, hlength, hreferences⟩ := lengthTokens_of_arrayLength hok
  exact ⟨suffix_of_lengthTokens hlength, hreferences, trivial⟩

section

variable {scope : Scope}

/-- A type that begins with a star or a name can be embedded. -/
theorem isEmbeddable_of_typeWithin {n : Nat} {tokens : List Token} {parsed : Parsed GoType}
    (hlexed : Lexed tokens) (hok : typeWithin scope n tokens = .ok parsed)
    (hnext : nextKind tokens = some .star ∨ nextKind tokens = some .identifier) :
    parsed.value.isEmbeddable := by
  have hpeek : peek 0 tokens = .ok ⟨nextKind tokens, [], tokens⟩ := by
    rw [nextKind, List.head?_eq_getElem?]
    rfl
  cases n with
  | zero => cases hok
  | succ n =>
    rw [typeWithin, bind_of_ok hpeek] at hok
    rcases hnext with hstar | hname
    · rw [hstar] at hok
      obtain ⟨_, _, -, hinner, rfl⟩ := bind_eq_ok.1 hok
      obtain ⟨_, -, rfl⟩ := bind_pure_eq_ok.1 hinner
      rfl
    · rw [hname] at hok
      exact (yields_typeName tokens parsed hlexed hok).2.2

/-- **What a reader of types makes** is a well-formed type, and its references are the own declared
types that the type mentions. -/
theorem yields_typeWithin (n : Nat) :
    (typeWithin scope n).Yields fun t references => scope.Builds [] [t] references := by
  induction n with
  | zero => exact .fails fun _ => ⟨_, rfl⟩
  | succ n ih =>
    refine .after (quiet_peek 0) fun next _ => ?_
    -- a type with one component makes its references those of the component
    have hone {wrap : GoType → GoType} (hwrap : ∀ t, scope.Builds [t] [wrap t] []) :
        Yields (typeWithin scope n >>= fun t => pure (wrap t)) fun t references =>
          scope.Builds [] [t] references :=
      ih.map fun t references ht => by simpa using ht.trans (hwrap t)
    split
    next => exact yields_typeName.imp fun _ _ h => h.1
    next => exact .after quiet_skip fun _ _ => hone fun t => .node (t := .pointer t) trivial (by simp)
    next =>
      refine .after quiet_skip fun _ _ => .after (quiet_accept _) fun slice _ => ?_
      split
      · exact hone fun t => .node (t := .slice t) trivial (by simp)
      · exact .after quiet_arrayLength fun length _ =>
          hone fun t => .node (t := .array length t) trivial (by simp)
    next =>
      refine .after quiet_skip fun _ _ => .after (quiet_expect _ (by decide)) fun _ _ => ?_
      refine .bind ih fun key references hkey => .after (quiet_expect _ (by decide)) fun _ _ => ?_
      refine ih.map fun value more hvalue => ?_
      have hboth := (hkey.append hvalue).trans (.node (t := .map key value) trivial (by simp))
      simpa using hboth
    next =>
      refine .after quiet_skip fun _ _ => .after (quiet_accept _) fun arrow _ => ?_
      exact hone fun t => .node (t := .chan _ t) trivial (by simp)
    next =>
      refine .after quiet_skip fun _ _ => .after (quiet_expect _ (by decide)) fun _ _ => ?_
      exact hone fun t => .node (t := .chan .receive t) trivial (by simp)
    next =>
      refine .after quiet_skip fun _ _ => (yields_signature ih).map fun s references hs => ?_
      simpa using hs.2.trans (.node (t := .func s) hs.1 (by simp))
    next =>
      exact .after quiet_skip fun _ _ => (yields_interfaceBody ih).map fun _ _ h => h
    next =>
      refine .after quiet_skip fun _ _ => (yields_structBody ih ?_).map fun _ _ h => h
      exact fun tokens parsed hlexed hok => isEmbeddable_of_typeWithin hlexed hok
    next =>
      refine .after quiet_skip fun _ _ => .bind ih fun inner references hinner => ?_
      refine .after (quiet_expect _ (by decide)) fun _ _ => .pure ?_
      rwa [List.append_nil]
    next => exact .fails fun _ => ⟨_, rfl⟩

/-- **A type that is read is well-formed**, and the references are the names of the own package that
it mentions. -/
theorem yields_typeExpr :
    (typeExpr scope).Yields fun t references => scope.Builds [] [t] references :=
  .bounded yields_typeWithin

end

end Multicast.Syntax
