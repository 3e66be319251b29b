import Multicast.Proofs.FileYields
import Multicast.Proofs.Hooked

/-!
# Where names stand

A declaration is recorded with the place of its name, and a reference with the place where it was
written. Both places are taken from tokens: whatever a parser reads from the end of a text, each
reference that it reports stands at an identifier of the text that is called so, and is not
predeclared (`Parser.Locates`). Two things have to be arranged for that. The names of declarations
come out of tokens that were read before, so what is said of the value goes along (`post`). And a
lone entry of a parameter list is kept with its place, and referred to only when the list is at its
end; until then it is the entry that has to be exact (`Entry.Exact`).

Which names are referred to is known from `File.Sound`: those of the own types that the declared types
mention at any depth. Together this is `parseFile_exact`.

## Two lists of references

It is shown of each reference that it is exact, and of the list of all references that it has the names
that the types of the file mention. Neither follows from the other: a reference could stand at the wrong
occurrence of its name, and a name that is mentioned could go without a reference. The first is shown
here, along the readers, with one lemma for each. The second is part of what makes a file sound.

The equivalence at the end needs that no file imports the path of its own package, since a type behind
such an import would look like one of its own and is not referred to.
-/

namespace Multicast.Syntax

open Source Multicast.Syntax.Parser

/-! ### Places -/

/-- An identifier with this name stands at the place, among these tokens. -/
def StandsAt (all : List Token) (name : String) (pos : Position) : Prop :=
  ∃ t ∈ all, t.kind = .identifier ∧ t.text = name ∧ t.pos = pos

/-- A reference is exact: it stands where it says it does, and there is something to refer to. -/
structure Reference.Exact (all : List Token) (r : Reference) : Prop where
  stands : StandsAt all r.name r.pos
  bare : r.name ∉ predeclared

/-- A declaration is exact: its name stands where it says it does. -/
def Declaration.Exact (all : List Token) (d : Declaration) : Prop :=
  StandsAt all d.object.name d.pos

/-- A lone entry of a parameter list is exact, for it may become a reference. -/
def Entry.Exact (all : List Token) : Entry → Prop
  | .lone name pos => StandsAt all name pos
  | .named .. | .unnamed .. => True

variable {α β : Type} {all : List Token}

namespace Parser

variable {post : α → Prop} {post' : β → Prop}

/-- **A parser locates**: reading from the end of a text, it leaves an end of it, its references are
exact, and its value has a property. -/
def Locates (p : Parser α) (all : List Token) (post : α → Prop) : Prop :=
  ∀ tokens parsed, tokens <:+ all → p tokens = .ok parsed →
    parsed.rest <:+ all ∧ (∀ r ∈ parsed.references, r.Exact all) ∧ post parsed.value

namespace Locates

/-- Less may be said of the value. -/
theorem imp {p : Parser α} {weaker : α → Prop} (h : p.Locates all post)
    (hpost : ∀ a, post a → weaker a) : p.Locates all weaker := by
  intro tokens parsed htokens hok
  obtain ⟨hrest, hrefs, hvalue⟩ := h tokens parsed htokens hok
  exact ⟨hrest, hrefs, hpost _ hvalue⟩

theorem pure {a : α} (h : post a) : (Pure.pure a : Parser α).Locates all post := by
  rintro tokens _ htokens ⟨⟩
  exact ⟨htokens, by simp, h⟩

/-- Nothing is located by a parser that never reads. -/
theorem fails {p : Parser α} (h : ∀ tokens, ∃ e, p tokens = .error e) : p.Locates all post := by
  intro tokens parsed _ hok
  obtain ⟨e, he⟩ := h tokens
  rw [he] at hok
  cases hok

/-- What the first value is known to be is known where the second parser goes on. -/
theorem bind {p : Parser α} {f : α → Parser β} (hp : p.Locates all post)
    (hf : ∀ a, post a → (f a).Locates all post') : (p >>= f).Locates all post' := by
  intro tokens parsed htokens hok
  obtain ⟨first, second, hfirst, hsecond, rfl⟩ := bind_eq_ok.1 hok
  obtain ⟨hrest, hrefs, hvalue⟩ := hp tokens first htokens hfirst
  obtain ⟨hrest', hrefs', hvalue'⟩ := hf _ hvalue first.rest second hrest hsecond
  refine ⟨hrest', fun r hr => ?_, hvalue'⟩
  rcases List.mem_append.1 hr with hr | hr
  · exact hrefs r hr
  · exact hrefs' r hr

theorem map {p : Parser α} {f : α → β} (hp : p.Locates all post) (hf : ∀ a, post a → post' (f a)) :
    (p >>= fun a => Pure.pure (f a)).Locates all post' :=
  bind hp fun a ha => pure (hf a ha)

theorem bounded {p : Nat → Parser α} (h : ∀ n, (p n).Locates all post) :
    (Parser.bounded p).Locates all post :=
  fun tokens => h _ tokens

end Locates

/-- What is read without a report from the tokens of a text. -/
theorem Quiet.locates {p : Parser α} (h : p.Quiet post) (hall : Lexed all) : p.Locates all post := by
  intro tokens parsed htokens hok
  obtain ⟨hrest, hrefs, hvalue⟩ := h tokens parsed (hall.of_suffix htokens) hok
  exact ⟨hrest.trans htokens, by simp [hrefs], hvalue⟩

/-- Behind what is read without a report. -/
theorem Locates.after {p : Parser α} {f : α → Parser β} (hall : Lexed all) (hp : p.Quiet post)
    (hf : ∀ a, (f a).Locates all post') : (p >>= f).Locates all post' :=
  bind (hp.locates hall) fun a _ => hf a

/-- A token that was read is one of the text. -/
theorem locates_expect {kind : Kind} (what : Wanted) :
    (expect kind what).Locates all fun t => t ∈ all ∧ t.kind = kind := by
  intro tokens parsed htokens hok
  rcases tokens with _ | ⟨t, rest⟩
  · cases hok
  · rw [expect] at hok
    split at hok
    next ht =>
      cases hok
      exact ⟨(List.suffix_cons t rest).trans htokens, by simp,
        htokens.subset List.mem_cons_self, ht⟩
    next => cases hok

/-- A name is an identifier of the text. -/
theorem locates_name : name.Locates all fun t => StandsAt all t.text t.pos :=
  (locates_expect _).imp fun t ht => ⟨t, ht.1, ht.2, rfl, rfl⟩

/-- Names are identifiers of the text, all of them. -/
theorem locates_names :
    Locates names all fun ts => ∀ t ∈ ts, StandsAt all t.text t.pos := by
  intro tokens parsed htokens hok
  obtain ⟨ts, rest, rfl, hnames⟩ := names_eq_ok.1 hok
  clear hok
  induction hnames with
  | @last t rest ht =>
    refine ⟨(List.suffix_cons _ _).trans htokens, by simp, fun s hs => ?_⟩
    obtain rfl := List.mem_singleton.1 hs
    exact ⟨s, htokens.subset List.mem_cons_self, ht, rfl, rfl⟩
  | @more t comma tokens ts rest ht _ _ ih =>
    obtain ⟨hrest, -, hstand⟩ := ih (List.IsSuffix.trans ⟨[t, comma], rfl⟩ htokens)
    exact ⟨hrest, by simp, List.forall_mem_cons.2
      ⟨⟨t, htokens.subset List.mem_cons_self, ht, rfl, rfl⟩, hstand⟩⟩

/-- A reference that is exact may be reported. -/
theorem locates_refer {r : Reference} (h : r.Exact all) :
    (refer r).Locates all fun _ => True := by
  rintro tokens _ htokens ⟨⟩
  refine ⟨htokens, fun s hs => ?_, trivial⟩
  obtain rfl := List.mem_singleton.1 hs
  exact h

end Parser

/-! ### Types -/

/-- Nothing is said of the value. -/
def Anything : α → Prop := fun _ => True

/-- A name is reported at the place where it stands, unless it is predeclared. -/
theorem locates_localType {scope : Scope} {name : String} {pos : Position}
    (h : StandsAt all name pos) : (scope.localType name pos).Locates all Anything := by
  unfold Scope.localType
  split
  next => exact .pure trivial
  next hbare => exact .bind (locates_refer ⟨h, hbare⟩) fun _ _ => .pure trivial

section

variable {scope : Scope} (hall : Lexed all)

include hall

/-- A name is referred to where it stands, unless it is predeclared or behind a package. -/
theorem locates_typeName : scope.typeName.Locates all Anything := by
  refine .bind locates_name fun first hfirst => .after hall (quiet_accept _) fun dotted => ?_
  -- no type arguments may follow
  have hplain (t : GoType) (b : Bool) :
      Locates (if b then failAt first.pos .instantiation >>= fun _ : Unit => pure t else pure t)
        all Anything := by
    cases b with
    | true => exact .fails fun _ => ⟨_, rfl⟩
    | false => exact .pure trivial
  cases dotted with
  | false =>
    exact .bind (locates_localType hfirst) fun t _ => .after hall (quiet_at _) fun b => hplain t b
  | true =>
    refine .after hall quiet_name fun second => ?_
    cases scope.import? first.text with
    | none => exact .fails fun _ => ⟨_, rfl⟩
    | some package =>
      exact .after hall (.pure ⟨rfl, trivial⟩ : Quiet _ fun _ => True) fun t =>
        .after hall (quiet_at _) fun b => hplain t b

/-! ### Parameter lists

A lone name may be the name of a parameter or a type, and which of the two shows at the end of the list.
If it is a type, it is referred to at the place where it was read. -/

variable {type : Parser GoType} (htype : type.Locates all Anything)

include htype

/-- A lone entry of a parameter list is kept with the place of its name. -/
theorem locates_entry : (Entry.parse type).Locates all (Entry.Exact all) := by
  intro tokens parsed htokens hok
  rcases tokens with _ | ⟨t, rest⟩
  · cases hok
  · have hrest : rest <:+ all := (List.suffix_cons t rest).trans htokens
    rw [Entry.parse] at hok
    split at hok
    next hlone =>
      cases hok
      exact ⟨hrest, by simp, t, htokens.subset List.mem_cons_self, hlone.1, rfl, rfl⟩
    next =>
      -- with a type of its own an entry is never referred to
      have hentry (make : Bool → GoType → Entry)
          (hmake : ∀ dots written, (make dots written).Exact all) :
          Locates (accept .ellipsis >>= fun dots => type >>= fun written => pure (make dots written))
            all (Entry.Exact all) :=
        .after hall (quiet_accept _) fun dots => htype.map fun written _ => hmake dots written
      split at hok
      next =>
        exact hentry (fun dots written => .named t.text dots written t.pos) (fun _ _ => trivial)
          rest parsed hrest hok
      next =>
        exact hentry (fun dots written => .unnamed dots written t.pos) (fun _ _ => trivial)
          (t :: rest) parsed htokens hok

/-- The lone entries of a parameter list are kept with their places. -/
theorem locates_entries (n : Nat) :
    (Entry.parseAll type n).Locates all fun es => ∀ e ∈ es, e.Exact all := by
  induction n with
  | zero => exact .fails fun _ => ⟨_, rfl⟩
  | succ n ih =>
    refine .after hall (quiet_accept _) fun closed => ?_
    split
    · exact .pure (by simp)
    · refine .bind (locates_entry hall htype) fun first hfirst => ?_
      have hothers : Locates (Entry.parseAll type n >>= fun others => pure (first :: others)) all
          fun es => ∀ e ∈ es, e.Exact all := by
        refine ih.map fun others hothers => ?_
        rintro e (_ | ⟨_, he⟩)
        · exact hfirst
        · exact hothers e he
      refine .after hall (quiet_accept _) fun comma => ?_
      split
      · exact hothers
      · refine .after hall (quiet_at _) fun paren => ?_
        split
        · exact hothers
        · exact .fails fun _ => ⟨_, rfl⟩

end

/-- A lone entry that is a type after all is reported where it stands. -/
theorem locates_resolve {scope : Scope} {allowDots named : Bool} {entries : List Entry}
    {waiting : List String} (hexact : ∀ e ∈ entries, e.Exact all) :
    (resolve scope allowDots named entries waiting).Locates all Anything := by
  induction entries generalizing waiting with
  | nil =>
    cases waiting with
    | nil => exact .pure trivial
    | cons n waiting => exact .fails fun _ => ⟨_, rfl⟩
  | cons e entries ih =>
    have hrest (waiting : List String) :
        (resolve scope allowDots named entries waiting).Locates all Anything :=
      ih fun e he => hexact e (List.mem_cons_of_mem _ he)
    have he := hexact e List.mem_cons_self
    cases e with
    | lone name pos =>
      rw [resolve]
      split
      · exact hrest _
      · exact .bind (locates_localType he) fun t _ => (hrest _).map fun _ _ => trivial
    | named name dots type pos =>
      rw [resolve]
      split
      · exact .fails fun _ => ⟨_, rfl⟩
      · exact (hrest _).map fun _ _ => trivial
    | unnamed dots type pos =>
      rw [resolve]
      split
      · exact .fails fun _ => ⟨_, rfl⟩
      · split
        · exact .fails fun _ => ⟨_, rfl⟩
        · exact (hrest _).map fun _ _ => trivial

section

variable {scope : Scope} {type : Parser GoType} (hall : Lexed all)
  (htype : type.Locates all Anything)

include hall htype

/-- A lone entry that turns out to be a type is referred to at the place that was kept for it. -/
theorem locates_parameters (allowDots : Bool) :
    (parameters scope type allowDots).Locates all Anything := by
  refine .after hall (quiet_expect _ (by decide)) fun _ => ?_
  exact .bind (.bounded (locates_entries hall htype)) fun entries hentries => locates_resolve hentries

/-! ### Signatures, interfaces and structs -/

/-- A signature refers to what its parameters and its results refer to. -/
theorem locates_signature : (signature scope type).Locates all Anything := by
  refine .bind (locates_parameters hall htype true) fun list _ => ?_
  refine .after hall (quiet_at _) fun paren => .after hall (quiet_peek 0) fun next => ?_
  split
  · refine .bind (locates_parameters hall htype false) fun results _ => ?_
    exact .bind (.pure trivial : Locates _ all Anything) fun _ _ => .pure trivial
  · split
    · refine .bind htype fun result _ => ?_
      exact .bind (.pure trivial : Locates _ all Anything) fun _ _ => .pure trivial
    · exact .bind (.pure trivial : Locates _ all Anything) fun _ _ => .pure trivial

/-- An element refers to what its signature or its embedded type refers to. -/
theorem locates_element : (element scope type).Locates all Anything := by
  refine .after hall (quiet_peek 0) fun first => .after hall (quiet_peek 1) fun second => ?_
  split
  · refine .after hall quiet_name fun declared => ?_
    exact (locates_signature hall htype).map fun _ _ => trivial
  · exact .fails fun _ => ⟨_, rfl⟩
  · refine .after hall quiet_here fun pos => .bind htype fun embedded _ => ?_
    refine .after hall (quiet_at _) fun pipe => ?_
    cases pipe with
    | true => exact .fails fun _ => ⟨_, rfl⟩
    | false => exact .pure trivial

omit htype in
/-- A body refers to what its items refer to. -/
theorem locates_braced {item : Parser α} (hitem : item.Locates all Anything) (n : Nat) :
    (braced item n).Locates all Anything := by
  induction n with
  | zero => exact .fails fun _ => ⟨_, rfl⟩
  | succ n ih =>
    refine .after hall quiet_skipSemicolons fun _ => .after hall (quiet_accept _) fun closed => ?_
    split
    · exact .pure trivial
    · refine .bind hitem fun first _ => ?_
      have hothers : Locates (braced item n >>= fun others => pure (first :: others)) all Anything :=
        ih.map fun _ _ => trivial
      refine .after hall (quiet_at _) fun brace => ?_
      split
      · exact hothers
      · exact .after hall (quiet_semicolon _) fun _ => hothers

/-- An interface refers to what its elements refer to. -/
theorem locates_interfaceBody : (interfaceBody scope type).Locates all Anything := by
  refine .after hall (quiet_expect _ (by decide)) fun _ => ?_
  exact (Locates.bounded (locates_braced hall (locates_element hall htype))).map
    fun _ _ => trivial

/-- Fields refer to what their types refer to. -/
theorem locates_fields : (fields type).Locates all Anything := by
  have hembedded : (embeddedField type).Locates all Anything :=
    .bind htype fun _ _ => .after hall quiet_tag fun _ => .pure trivial
  have hnamed : (namedFields type).Locates all Anything :=
    .after hall quiet_names fun _ => .bind htype fun _ _ =>
      .after hall quiet_tag fun _ => .pure trivial
  refine .after hall (quiet_peek 0) fun first => ?_
  split
  · exact hembedded
  · refine .after hall (quiet_peek 1) fun second => ?_
    split
    · exact hembedded
    · exact hnamed
  · exact .fails fun _ => ⟨_, rfl⟩

/-- A struct refers to what its fields refer to. -/
theorem locates_structBody : (structBody type).Locates all Anything := by
  refine .after hall (quiet_expect _ (by decide)) fun _ => ?_
  exact (Locates.bounded (locates_braced hall (locates_fields hall htype))).map
    fun _ _ => trivial

end

/-! ### Type expressions -/

section

variable {scope : Scope} (hall : Lexed all)

include hall

/-- **Whatever a type refers to is referred to where it stands.** -/
theorem locates_typeWithin (n : Nat) : (typeWithin scope n).Locates all Anything := by
  induction n with
  | zero => exact .fails fun _ => ⟨_, rfl⟩
  | succ n ih =>
    have hone (wrap : GoType → GoType) :
        Locates (typeWithin scope n >>= fun t => pure (wrap t)) all Anything :=
      ih.map fun _ _ => trivial
    refine .after hall (quiet_peek 0) fun next => ?_
    split
    next => exact locates_typeName hall
    next => exact .after hall quiet_skip fun _ => hone _
    next =>
      refine .after hall quiet_skip fun _ => .after hall (quiet_accept _) fun slice => ?_
      split
      · exact hone _
      · exact .after hall quiet_arrayLength fun _ => hone _
    next =>
      refine .after hall quiet_skip fun _ => .after hall (quiet_expect _ (by decide)) fun _ => ?_
      refine .bind ih fun key _ => .after hall (quiet_expect _ (by decide)) fun _ => ?_
      exact hone _
    next =>
      exact .after hall quiet_skip fun _ => .after hall (quiet_accept _) fun _ => hone _
    next =>
      refine .after hall quiet_skip fun _ => .after hall (quiet_expect _ (by decide)) fun _ => ?_
      exact hone _
    next =>
      exact .after hall quiet_skip fun _ => (locates_signature hall ih).map fun _ _ => trivial
    next =>
      exact .after hall quiet_skip fun _ => (locates_interfaceBody hall ih).map fun _ _ => trivial
    next =>
      exact .after hall quiet_skip fun _ => (locates_structBody hall ih).map fun _ _ => trivial
    next =>
      refine .after hall quiet_skip fun _ => .bind ih fun inner _ => ?_
      exact .after hall (quiet_expect _ (by decide)) fun _ => .pure trivial
    next => exact .fails fun _ => ⟨_, rfl⟩

/-! ### Declarations -/

/-- All of these declarations are exact. -/
def AllExact (all : List Token) (ds : List Declaration) : Prop :=
  ∀ d ∈ ds, d.Exact all

/-- What a name declares refers to exact names, and to none at all if it is skipped. -/
theorem locates_typeKind : (typeKind scope).Locates all Anything := by
  have hunsupported (reason : String) : (unsupported reason).Locates all Anything :=
    .after hall quiet_skipToEnd fun _ => .pure trivial
  have hdefinition : (typeDefinition scope).Locates all Anything := by
    refine .after hall (quiet_accept _) fun isAlias => ?_
    exact (Locates.bounded (locates_typeWithin hall)).map fun _ _ => trivial
  intro tokens parsed htokens hok
  rw [typeKind] at hok
  split at hok
  · exact hunsupported _ tokens parsed htokens hok
  · split at hok
    next hread =>
      cases hok
      exact hdefinition tokens _ htokens hread
    next e _ =>
      split at hok
      · exact hunsupported _ tokens parsed htokens hok
      · cases hok

/-- A type is declared at the place of its name. -/
theorem locates_typeSpec (grouped : Bool) :
    (typeSpec scope grouped).Locates all fun d => d.Exact all := by
  refine .bind locates_name fun declared hdeclared => ?_
  refine .bind (locates_typeKind hall) fun kind _ => ?_
  exact .after hall (quiet_specEnd grouped) fun _ => .pure hdeclared

omit scope

/-- A function is declared at the place of its name. -/
theorem locates_funcDeclaration : funcDeclaration.Locates all (AllExact all) := by
  refine .after hall quiet_receiver fun isMethod => .bind locates_name fun declared hdeclared => ?_
  refine .after hall quiet_skipDeclaration fun _ => ?_
  split
  · exact .pure (by simp [AllExact])
  · refine .pure fun d hd => ?_
    obtain rfl := List.mem_singleton.1 hd
    exact hdeclared

/-- Variables and constants are declared at the places of their names. -/
theorem locates_valueSpec (kind : ObjectKind) : (valueSpec kind).Locates all (AllExact all) := by
  refine .bind locates_names fun declared hdeclared => ?_
  refine .after hall quiet_skipDeclaration fun _ => .pure fun d hd => ?_
  obtain ⟨t, ht, rfl⟩ := List.mem_map.1 hd
  exact hdeclared t (List.mem_filter.1 ht).1

/-- Specs in a group are as good as each of them. -/
theorem locates_group {spec : Bool → Parser α} {one : α → Prop}
    (hspec : ∀ grouped, (spec grouped).Locates all one) :
    (group spec).Locates all fun as => ∀ a ∈ as, one a := by
  have hrest (n : Nat) : (groupRest (spec true) n).Locates all fun as => ∀ a ∈ as, one a := by
    induction n with
    | zero => exact .fails fun _ => ⟨_, rfl⟩
    | succ n ih =>
      refine .after hall quiet_skipSemicolons fun _ => .after hall (quiet_accept _) fun closed => ?_
      split
      · exact .pure (by simp)
      · refine .after hall (quiet_peek 0) fun next => ?_
        split
        · exact .fails fun _ => ⟨_, rfl⟩
        · refine .bind (hspec true) fun first hfirst => ih.map fun others hothers => ?_
          exact List.forall_mem_cons.2 ⟨hfirst, hothers⟩
  refine .after hall (quiet_accept _) fun opened => ?_
  split
  · refine .bind (.bounded hrest) fun specs hspecs => ?_
    exact .after hall (quiet_specEnd false) fun _ => .pure hspecs
  · exact (hspec false).map fun only honly => by simpa using honly

/-- All declarations of a file are exact, and all references in them. -/
theorem locates_declarations (scope : Scope) (n : Nat) :
    (declarations scope n).Locates all (AllExact all) := by
  induction n with
  | zero => exact .pure (by simp [AllExact])
  | succ n ih =>
    have hnext {ds : List Declaration} (hds : AllExact all ds) :
        Locates (declarations scope n >>= fun others => pure (ds ++ others)) all (AllExact all) :=
      ih.map fun others hothers => List.forall_mem_append.2 ⟨hds, hothers⟩
    have hvalues (kind : ObjectKind) : Locates (group (fun _ => valueSpec kind) >>= fun first =>
        declarations scope n >>= fun others => pure (first.flatten ++ others)) all (AllExact all) := by
      refine .bind (locates_group hall fun _ => locates_valueSpec hall kind) fun first hfirst => ?_
      refine hnext fun d hd => ?_
      obtain ⟨ds, hds, hd⟩ := List.mem_flatten.1 hd
      exact hfirst ds hds d hd
    refine .after hall (quiet_peek 0) fun next => ?_
    split
    · exact .pure (by simp [AllExact])
    · exact .after hall quiet_skip fun _ => ih
    · refine .after hall quiet_skip fun _ => ?_
      exact .bind (locates_group hall (locates_typeSpec hall)) fun ds hds => hnext hds
    · refine .after hall quiet_skip fun _ => ?_
      exact .bind (locates_funcDeclaration hall) fun ds hds => hnext hds
    · exact .after hall quiet_skip fun _ => hvalues .var
    · exact .after hall quiet_skip fun _ => hvalues .const
    · exact .fails fun _ => ⟨_, rfl⟩
    · exact .fails fun _ => ⟨_, rfl⟩

/-- The package clause and the imports refer to nothing, so the contents of a file are as exact as
its declarations. -/
theorem locates_contents (path : String) :
    (contents path).Locates all fun c => AllExact all c.declarations := by
  refine .after hall quiet_packageClause fun package => ?_
  refine .after hall (.bounded quiet_imports) fun is => ?_
  exact (Locates.bounded (locates_declarations hall _)).map fun ds hds => hds

end

/-! ### Files -/

/-- **Places and references are exact.** The place of a declaration is that of an identifier of the
text, which is the declared name. The place of a reference is that of an identifier too, which is the
name that is referred to, and not a predeclared one. And where a file does not import its own path, the
names that are referred to are those of the types of its own package that occur, at any depth, in the
types that it declares. -/
theorem parseFile_exact {file text path : String} {f : File} (h : parseFile file text path = .ok f) :
    ∃ ts, tokenize text = .ok ts ∧ (∀ d ∈ f.declarations, d.Exact ts.list) ∧
      (∀ r ∈ f.references, r.Exact ts.list) ∧
      ((∀ i ∈ f.imports, i.package.path ≠ path) → ∀ name,
        name ∈ f.references.map Reference.name ↔
          ∃ t ∈ f.types, t.Has (.named ⟨path, f.package⟩ name)) := by
  have hsound := sound_of_parseFile h
  obtain ⟨ts, c, references, rest, hts, hcontents, rfl⟩ := parseFile_eq_ok.1 h
  have hall : Lexed ts.list := fun t => isLexed_of_tokenize hts
  obtain ⟨-, hrefs, hdeclared⟩ :=
    locates_contents hall path ts.list _ (List.suffix_refl _) hcontents
  refine ⟨ts, hts, hdeclared, hrefs, fun hforeign name => ?_⟩
  have hscope : (File.scope path ⟨file, c.package, c.imports, c.declarations, references⟩).Foreign := by
    intro i hi hown
    exact hforeign i hi (congrArg PackageId.path hown)
  have hmentions := hsound.types.mentions hscope name
  simp only [Mentions, List.not_mem_nil, false_and, exists_false, false_or] at hmentions
  exact hmentions.symm

/-- A file with types that refer to each other and to the package, names of parameters, and a type that
cannot be described. -/
def meshText : String :=
  "package mesh\ntype Mesh interface\x7b Tie(a, b Knot, c func(Rope)) \x7d\ntype Rope []*Knot\ntype Net[K any] Cord\n"

theorem parseFile_exact_mesh :
    ∃ f ts, parseFile "mesh.go" meshText "m/mesh" = .ok f ∧
      f.references.map Reference.name = ["Knot", "Rope", "Knot"] ∧
      (∀ i ∈ f.imports, i.package.path ≠ "m/mesh") ∧ tokenize meshText = .ok ts ∧
      (∀ d ∈ f.declarations, d.Exact ts.list) ∧ (∀ r ∈ f.references, r.Exact ts.list) ∧
      ∀ name, name ∈ f.references.map Reference.name ↔
        ∃ t ∈ f.types, t.Has (.named ⟨"m/mesh", f.package⟩ name) := by
  have hchars : tokenize meshText = _ := tokenize_ofList _
  have hcheck : (tokenize meshText).toOption.any (fun ts =>
      (contents "m/mesh" ts.list).toOption.any fun parsed =>
        parsed.references.map Reference.name = ["Knot", "Rope", "Knot"] ∧
          ∀ i ∈ parsed.value.imports, i.package.path ≠ "m/mesh") = true := by
    rw [hchars]
    decide +kernel
  obtain ⟨ts, hts, hcheck⟩ := exists_ok_of_any hcheck
  obtain ⟨⟨c, references, rest⟩, hread, hcheck⟩ := exists_ok_of_any hcheck
  obtain ⟨hnames, hforeign⟩ := of_decide_eq_true hcheck
  have hfile : parseFile "mesh.go" meshText "m/mesh" = .ok _ :=
    parseFile_eq_ok.2 ⟨ts, c, references, rest, hts, hread, rfl⟩
  obtain ⟨ts', hts', hdeclared, hrefs, hmentions⟩ := parseFile_exact hfile
  exact ⟨_, ts', hfile, hnames, hforeign, hts', hdeclared, hrefs, hmentions hforeign⟩

end Multicast.Syntax
