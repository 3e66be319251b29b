import Mathlib.Logic.Relation
import Multicast.Proofs.ParameterRule

/-!
# Where types stand in a type

While a type is read, types are read inside of it: behind a star, between the brackets of a map and
behind them, as fields, parameters and results, as elements of an interface. `scope.TypeAt tokens us`
says of tokens that begin a type that right inside of it a type is read from `us`, and it is a relation on
tokens: what stands in front of `us` has to be written so that the reader gets there, and what stands
behind does not matter. The steps of this relation lead to all types at any depth.

Nothing that is read there is lost. In a type that is read, whatever begins at such a place is read as a
type, and it occurs in the whole (`readsIn_of_places`).

## A relation on tokens

Where the types inside of a type stand is told by the tokens in front of them, and there are as many ways
to get there as there are constructs. The relation has a constructor for each way, and its premises are
what the reader has to find on the way: a kind of token, or something that it reads. It is followed in the
direction of reading, so the proof that a place is reached goes by the constructor, and there is one lemma
for each construct that has places of its own: entries, lists, signatures, bodies, elements, lines.

At any depth a place is reached by such steps one after the other, and the type that is read there occurs
in the type that is read from the outermost one.
-/

namespace Multicast.Syntax

open Source Multicast.Syntax.Parser

/-! ### What a type begins with

The first token decides which construct is read. The equations here say what is read behind it. -/

section

variable {scope : Scope} {t : Token}

/-- One token decides which reader goes on, and that one may read types again without a bound. -/
theorem typeExpr_cons (t : Token) (rest : List Token) : typeExpr scope (t :: rest) =
    (Readers.ofType scope (typeExpr scope)).nextType scope (t :: rest) :=
  congrFun (congrArg Readers.type scope.next_readers).symm (t :: rest)

/-- Behind a star the element type is read. -/
theorem typeExpr_star (ht : t.kind = .star) (rest : List Token) : typeExpr scope (t :: rest) =
    (typeExpr scope >>= fun elem => pure (.pointer elem)) rest := by
  rw [typeExpr_cons, Readers.nextType, peek_cons, ht]
  exact skip_cons

/-- Behind a bracket the element type of a slice is read, or a length and the element type of an
array. -/
theorem typeExpr_bracket (ht : t.kind = .leftBracket) (rest : List Token) :
    typeExpr scope (t :: rest) = (accept .rightBracket >>= fun slice =>
      if slice then typeExpr scope >>= fun elem => pure (.slice elem)
      else arrayLength >>= fun length => typeExpr scope >>= fun elem => pure (.array length elem) :
        Parser GoType) rest := by
  rw [typeExpr_cons, Readers.nextType, peek_cons, ht]
  exact skip_cons

/-- Behind the keyword of a map its key is read between brackets, and then its values. -/
theorem typeExpr_map (ht : t.kind = .keyword .mapKw) (rest : List Token) :
    typeExpr scope (t :: rest) = (expect .leftBracket .leftBracket >>= fun _ =>
      typeExpr scope >>= fun key => expect .rightBracket .rightBracket >>= fun _ =>
        typeExpr scope >>= fun value => pure (.map key value) : Parser GoType) rest := by
  rw [typeExpr_cons, Readers.nextType, peek_cons, ht]
  exact skip_cons

/-- Behind the keyword of a channel its element type is read, and before it an arrow if there is
one. -/
theorem typeExpr_chan (ht : t.kind = .keyword .chanKw) (rest : List Token) :
    typeExpr scope (t :: rest) = (accept .arrow >>= fun arrow => typeExpr scope >>= fun elem =>
      pure (.chan (if arrow then .send else .both) elem) : Parser GoType) rest := by
  rw [typeExpr_cons, Readers.nextType, peek_cons, ht]
  exact skip_cons

/-- Behind an arrow a channel is wanted. -/
theorem typeExpr_arrow (ht : t.kind = .arrow) (rest : List Token) :
    typeExpr scope (t :: rest) = (expect (.keyword .chanKw) .chanKeyword >>= fun _ =>
      typeExpr scope >>= fun elem => pure (.chan .receive elem) : Parser GoType) rest := by
  rw [typeExpr_cons, Readers.nextType, peek_cons, ht]
  exact skip_cons

/-- Behind the keyword of a function type its signature is read. -/
theorem typeExpr_func (ht : t.kind = .keyword .funcKw) (rest : List Token) :
    typeExpr scope (t :: rest) =
      (signature scope (typeExpr scope) >>= fun s => pure (.func s)) rest := by
  rw [typeExpr_cons, Readers.nextType, peek_cons, ht]
  exact skip_cons

/-- Behind the keyword of an interface its body is read. -/
theorem typeExpr_interface (ht : t.kind = .keyword .interfaceKw) (rest : List Token) :
    typeExpr scope (t :: rest) =
      (interfaceBody scope (typeExpr scope) >>= fun body => pure (.interface body)) rest := by
  rw [typeExpr_cons, Readers.nextType, peek_cons, ht]
  exact skip_cons

/-- Behind the keyword of a struct its body is read. -/
theorem typeExpr_struct (ht : t.kind = .keyword .structKw) (rest : List Token) :
    typeExpr scope (t :: rest) =
      (structBody (typeExpr scope) >>= fun fields => pure (.struct fields)) rest := by
  rw [typeExpr_cons, Readers.nextType, peek_cons, ht]
  exact skip_cons

/-- Behind a parenthesis a type is read, up to the parenthesis that closes it. -/
theorem typeExpr_paren (ht : t.kind = .leftParen) (rest : List Token) :
    typeExpr scope (t :: rest) = (typeExpr scope >>= fun inner =>
      expect .rightParen .rightParen >>= fun _ => pure inner) rest := by
  rw [typeExpr_cons, Readers.nextType, peek_cons, ht]
  exact skip_cons

/-- What begins a type is known of the readers of a scope. -/
theorem typeReader_typeExpr : TypeReader (typeExpr scope) where
  begins h := (typeReader_typeWithin scope _).begins h
  lone ht h := (typeReader_typeWithin scope _).lone ht h

end

section

variable {α : Type} {f : Option Kind → Parser α} (tokens : List Token)

/-- The first token is looked at. -/
theorem peek_first : (peek 0 >>= f) tokens = f (nextKind tokens) tokens := by
  cases tokens <;> exact bind_of_ok rfl

/-- The second token is looked at. -/
theorem peek_second : (peek 1 >>= f) tokens = f (nextKind tokens.tail) tokens := by
  rcases tokens with _ | ⟨t, _ | ⟨u, rest⟩⟩ <;> exact bind_of_ok rfl

end

/-! ### Places in a parameter list

The entry is where a name may stand in front of the type, and whether one does is told by the token behind
it. -/

/-- What stands behind three dots, if there are any. -/
def behindDots (tokens : List Token) : List Token :=
  if nextKind tokens = some .ellipsis then tokens.tail else tokens

/-- Where the type of an entry stands, if the entry is not a name alone. -/
inductive EntryAt : List Token → List Token → Prop
  | named {t : Token} {rest : List Token} (ht : t.kind = .identifier)
    (hnext : nextKind rest ≠ some .comma ∧ nextKind rest ≠ some .rightParen ∧
      nextKind rest ≠ some .dot) : EntryAt (t :: rest) (behindDots rest)
  | unnamed {t : Token} {rest : List Token}
    (ht : t.kind = .identifier → nextKind rest = some .dot) :
    EntryAt (t :: rest) (behindDots (t :: rest))

section

variable (scope : Scope)

/-- Where the types of entries stand, behind the opening parenthesis. -/
inductive EntriesAt : List Token → List Token → Prop
  | first {tokens us : List Token} (hopen : nextKind tokens ≠ some .rightParen)
    (h : EntryAt tokens us) : EntriesAt tokens us
  | further {tokens rest us : List Token} {e : Parsed Entry} {comma : Token}
    (he : Entry.parse (typeExpr scope) tokens = .ok e) (hrest : e.rest = comma :: rest)
    (hcomma : comma.kind = .comma) (h : EntriesAt rest us) : EntriesAt tokens us

/-- Where the types of parameters and results stand. -/
inductive SignatureAt : List Token → List Token → Prop
  | param {paren : Token} {rest us : List Token} (hparen : paren.kind = .leftParen)
    (h : EntriesAt scope rest us) : SignatureAt (paren :: rest) us
  | results {tokens rest us : List Token} {list : Parsed ParameterList} {paren : Token}
    (hlist : parameters scope (typeExpr scope) true tokens = .ok list)
    (hrest : list.rest = paren :: rest) (hparen : paren.kind = .leftParen)
    (h : EntriesAt scope rest us) : SignatureAt tokens us
  | result {tokens : List Token} {list : Parsed ParameterList}
    (hlist : parameters scope (typeExpr scope) true tokens = .ok list)
    (hstarts : (nextKind list.rest).any startsResult = true) : SignatureAt tokens list.rest

end

/-! ### Places between braces

The reader of the items is a parameter, so that interfaces and structs share the places between braces. -/

/-- What stands behind semicolons. -/
def behindSemicolons (tokens : List Token) : List Token :=
  tokens.dropWhile (·.kind = .semicolon)

section

variable {α : Type} (item : Parser α) (place : List Token → List Token → Prop)

/-- Where types stand between braces, behind the opening one, if in an item they stand at these
places. -/
inductive BracedAt : List Token → List Token → Prop
  | first {tokens us : List Token} (hopen : nextKind (behindSemicolons tokens) ≠ some .rightBrace)
    (h : place (behindSemicolons tokens) us) : BracedAt tokens us
  | further {tokens rest us : List Token} {a : Parsed α} {semicolon : Token}
    (hopen : nextKind (behindSemicolons tokens) ≠ some .rightBrace)
    (ha : item (behindSemicolons tokens) = .ok a) (hrest : a.rest = semicolon :: rest)
    (hsemicolon : semicolon.kind = .semicolon) (h : BracedAt rest us) : BracedAt tokens us

end

/-- Where types stand in an element of an interface. -/
inductive ElementAt (scope : Scope) : List Token → List Token → Prop
  | method {t : Token} {rest us : List Token} (ht : t.kind = .identifier)
    (hparen : nextKind rest = some .leftParen) (h : SignatureAt scope rest us) :
    ElementAt scope (t :: rest) us
  | embedded {tokens : List Token}
    (hmethod : nextKind tokens = some .identifier → nextKind tokens.tail ≠ some .leftParen)
    (htilde : nextKind tokens ≠ some .tilde) : ElementAt scope tokens tokens

/-- Where the type of a line of a struct stands. -/
inductive LineAt : List Token → List Token → Prop
  | named {tokens : List Token} {fields : Parsed (List Token)}
    (hstart : nextKind tokens = some .identifier)
    (hnext : (nextKind tokens.tail).any endsEmbedded = false) (hnames : names tokens = .ok fields) :
    LineAt tokens fields.rest
  | embedded {tokens : List Token} (hstart : nextKind tokens = some .star ∨
      nextKind tokens = some .identifier ∧ (nextKind tokens.tail).any endsEmbedded = true) :
    LineAt tokens tokens

/-! ### Places in a type -/

/-- **Where types stand right inside a type.** -/
inductive Scope.TypeAt (scope : Scope) : List Token → List Token → Prop
  | pointer {t : Token} {rest : List Token} (ht : t.kind = .star) : scope.TypeAt (t :: rest) rest
  | slice {t u : Token} {rest : List Token} (ht : t.kind = .leftBracket)
    (hu : u.kind = .rightBracket) : scope.TypeAt (t :: u :: rest) rest
  | array {t : Token} {tokens length rest : List Token} (ht : t.kind = .leftBracket)
    (hopen : nextKind tokens ≠ some .rightBracket)
    (hlength : lengthTokens 0 tokens = some (length, rest)) : scope.TypeAt (t :: tokens) rest
  | key {t u : Token} {rest : List Token} (ht : t.kind = .keyword .mapKw)
    (hu : u.kind = .leftBracket) : scope.TypeAt (t :: u :: rest) rest
  | value {t u v : Token} {tokens rest : List Token} {key : Parsed GoType}
    (ht : t.kind = .keyword .mapKw) (hu : u.kind = .leftBracket)
    (hkey : typeExpr scope tokens = .ok key) (hrest : key.rest = v :: rest)
    (hv : v.kind = .rightBracket) : scope.TypeAt (t :: u :: tokens) rest
  | chan {t : Token} {rest : List Token} (ht : t.kind = .keyword .chanKw)
    (hnext : nextKind rest ≠ some .arrow) : scope.TypeAt (t :: rest) rest
  | send {t u : Token} {rest : List Token} (ht : t.kind = .keyword .chanKw)
    (hu : u.kind = .arrow) : scope.TypeAt (t :: u :: rest) rest
  | receive {t u : Token} {rest : List Token} (ht : t.kind = .arrow)
    (hu : u.kind = .keyword .chanKw) : scope.TypeAt (t :: u :: rest) rest
  | func {t : Token} {rest us : List Token} (ht : t.kind = .keyword .funcKw)
    (h : SignatureAt scope rest us) : scope.TypeAt (t :: rest) us
  | interface {t u : Token} {rest us : List Token} (ht : t.kind = .keyword .interfaceKw)
    (hu : u.kind = .leftBrace)
    (h : BracedAt (element scope (typeExpr scope)) (ElementAt scope) rest us) :
    scope.TypeAt (t :: u :: rest) us
  | struct {t u : Token} {rest us : List Token} (ht : t.kind = .keyword .structKw)
    (hu : u.kind = .leftBrace) (h : BracedAt (fields (typeExpr scope)) LineAt rest us) :
    scope.TypeAt (t :: u :: rest) us
  | paren {t : Token} {rest : List Token} (ht : t.kind = .leftParen) : scope.TypeAt (t :: rest) rest

/-- Where types stand in a type, at any depth. -/
def Scope.Places (scope : Scope) : List Token → List Token → Prop :=
  Relation.ReflTransGen scope.TypeAt

/-! ### What is read there -/

/-- From these tokens a type is read that occurs in one of these types. -/
def Scope.ReadsIn (scope : Scope) (us : List Token) (types : List GoType) : Prop :=
  ∃ inner, typeExpr scope us = .ok inner ∧ ∃ t ∈ types, t.Has inner.value

section

variable {scope : Scope} {tokens us : List Token}

/-- What is read at a place is read there. -/
theorem Scope.ReadsIn.of_ok {inner : Parsed GoType} (h : typeExpr scope us = .ok inner)
    {types : List GoType} (hmem : inner.value ∈ types) : scope.ReadsIn us types :=
  ⟨inner, h, _, hmem, .self _⟩

theorem Scope.ReadsIn.mono {types types' : List GoType} (h : scope.ReadsIn us types)
    (hsub : types ⊆ types') : scope.ReadsIn us types' := by
  obtain ⟨inner, hinner, t, ht, hhas⟩ := h
  exact ⟨inner, hinner, t, hsub ht, hhas⟩

/-- Three dots, and a type behind them. -/
theorem dotted_behindDots {make : Bool → GoType → Entry} {parsed : Parsed Entry}
    (h : (accept .ellipsis >>= fun dots => typeExpr scope >>= fun written =>
      pure (make dots written) : Parser Entry) tokens = .ok parsed) :
    ∃ dots inner, typeExpr scope (behindDots tokens) = .ok inner ∧
      parsed.value = make dots inner.value := by
  have hbehind {dots : Bool} {tokens : List Token} (h : (typeExpr scope >>= fun written =>
      pure (make dots written) : Parser Entry) tokens = .ok parsed) :
      ∃ inner, typeExpr scope tokens = .ok inner ∧ parsed.value = make dots inner.value := by
    obtain ⟨inner, hinner, rfl⟩ := bind_pure_eq_ok.1 h
    exact ⟨inner, hinner, rfl⟩
  by_cases hnext : nextKind tokens = some .ellipsis
  · obtain ⟨t, rest, rfl, ht⟩ := exists_cons_of_nextKind hnext
    rw [bind_of_ok (accept_of_eq ht rest)] at h
    rw [behindDots, if_pos hnext]
    exact ⟨true, hbehind h⟩
  · rw [bind_of_ok (accept_of_ne hnext)] at h
    rw [behindDots, if_neg hnext]
    exact ⟨false, hbehind h⟩

/-- The type of an entry is among the types of the entry. -/
theorem readsIn_entry {parsed : Parsed Entry}
    (h : Entry.parse (typeExpr scope) tokens = .ok parsed) (hat : EntryAt tokens us) :
    scope.ReadsIn us parsed.value.types := by
  cases hat with
  | @named t rest ht hnext =>
    rw [Entry.parse] at h
    split at h
    next hlone => exact absurd hlone.2 (not_or.2 ⟨hnext.1, hnext.2.1⟩)
    next =>
      split at h
      next =>
        obtain ⟨dots, inner, hinner, hvalue⟩ := dotted_behindDots h
        rw [hvalue]
        exact .of_ok hinner (List.mem_singleton_self _)
      next hdot => exact absurd ⟨ht, hnext.2.2⟩ hdot
  | @unnamed t rest ht =>
    rw [Entry.parse] at h
    split at h
    next hlone =>
      rcases hlone.2 with hcomma | hparen
      · cases hcomma.symm.trans (ht hlone.1)
      · cases hparen.symm.trans (ht hlone.1)
    next =>
      split at h
      next hnamed => exact absurd (ht hnamed.1) hnamed.2
      next =>
        obtain ⟨dots, inner, hinner, hvalue⟩ := dotted_behindDots h
        rw [hvalue]
        exact .of_ok hinner (List.mem_singleton_self _)

/-- The types of the entries are among the types of the list, entry by entry. -/
theorem readsIn_entries (hat : EntriesAt scope tokens us) {parsed : Parsed (List Entry)}
    (h : bounded (Entry.parseAll (typeExpr scope)) tokens = .ok parsed) :
    scope.ReadsIn us (parsed.value.flatMap Entry.types) := by
  induction hat generalizing parsed with
  | first hopen hat =>
    rw [loop_entries.eq_round] at h
    obtain ⟨e, _, others, he, -, -, rfl⟩ := (further_eq_ok hopen).1 h
    exact (readsIn_entry he hat).mono (by simp)
  | @further tokens rest us e comma he hrest hcomma _ ih =>
    have hopen : nextKind tokens ≠ some .rightParen := by
      obtain ⟨words, rfl, hwritten⟩ := Entry.isWritten_of_parse typeReader_typeExpr he
      obtain ⟨t, more, rfl, ht⟩ := hwritten.begins typeReader_typeExpr
      simpa [nextKind] using ht
    rw [loop_entries.eq_round] at h
    obtain ⟨e', behind, others, he', hbehind, hothers, rfl⟩ := (further_eq_ok hopen).1 h
    cases he.symm.trans he'
    obtain rfl : rest = behind := by
      rcases hbehind with ⟨comma', -, hsplit⟩ | ⟨hparen, hsplit⟩
      · exact (List.cons.inj (hrest.symm.trans hsplit)).2
      · rw [← hsplit, hrest] at hparen
        exact absurd (hcomma.symm.trans (Option.some.inj hparen)) (by decide)
    exact (ih hothers).mono (by simp)

/-- The type of an entry has the one that the entry is written with. -/
theorem Entry.has_own (scope : Scope) {e : Entry} {t : GoType} (ht : t ∈ e.types) :
    (e.own scope).Has t := by
  cases e with
  | lone => cases ht
  | named _ dots | unnamed dots =>
    obtain rfl := List.mem_singleton.1 ht
    cases dots with
    | true => exact .inside (List.mem_singleton_self _) (.self t)
    | false => exact .self t

/-- The types that entries are written with are found again in the parameters that are made of them. -/
theorem has_of_resolve {allowDots named : Bool} {entries : List Entry} {waiting : List String}
    {list : Parsed ParameterList}
    (h : resolve scope allowDots named entries waiting tokens = .ok list) {t : GoType}
    (ht : t ∈ entries.flatMap Entry.types) : ∃ p ∈ list.value.params, p.type.Has t := by
  induction entries generalizing waiting tokens list with
  | nil => cases ht
  | cons e entries ih =>
    rw [List.flatMap_cons, List.mem_append] at ht
    rcases (resolve_cons_eq_ok h).2 with ⟨-, name, pos, rfl, hothers⟩ |
      ⟨-, -, others, hothers, -, hparams⟩ | ⟨name, dots, type, pos, others, rfl, hothers, -, hparams⟩
    · exact ih hothers (ht.resolve_left List.not_mem_nil)
    · rw [hparams]
      rcases ht with ht | ht
      · exact ⟨_, List.mem_cons_self, Entry.has_own scope ht⟩
      · obtain ⟨p, hp, hhas⟩ := ih hothers ht
        exact ⟨p, List.mem_cons_of_mem _ hp, hhas⟩
    · rw [hparams]
      rcases ht with ht | ht
      · exact ⟨_, List.mem_append_right _ List.mem_cons_self, Entry.has_own scope ht⟩
      · obtain ⟨p, hp, hhas⟩ := ih hothers ht
        exact ⟨p, List.mem_append_right _ (List.mem_cons_of_mem _ hp), hhas⟩

/-- The types of the entries are among the types of the parameters. -/
theorem readsIn_parameters {allowDots : Bool} {paren : Token} {rest : List Token}
    {list : Parsed ParameterList} (hparen : paren.kind = .leftParen)
    (h : parameters scope (typeExpr scope) allowDots (paren :: rest) = .ok list)
    (hat : EntriesAt scope rest us) : scope.ReadsIn us (list.value.params.map Param.type) := by
  have hinside : parameters scope (typeExpr scope) allowDots (paren :: rest) =
      (bounded (Entry.parseAll (typeExpr scope)) >>= fun entries =>
        resolve scope allowDots (entries.any Entry.isNamed) entries []) rest :=
    bind_of_ok (if_pos hparen)
  rw [hinside] at h
  obtain ⟨entries, list, hentries, hlist, rfl⟩ := bind_eq_ok.1 h
  obtain ⟨inner, hinner, t, ht, hhas⟩ := readsIn_entries hat hentries
  obtain ⟨p, hp, hp'⟩ := has_of_resolve hlist ht
  exact ⟨inner, hinner, p.type, List.mem_map_of_mem hp, hp'.trans hhas⟩

/-- What is read as a signature: the parameters, and results in parentheses, one result or none. -/
theorem signature_cases {parsed : Parsed Signature}
    (h : signature scope (typeExpr scope) tokens = .ok parsed) :
    ∃ list, parameters scope (typeExpr scope) true tokens = .ok list ∧
      parsed.value.params = list.value.params ∧
      (nextKind list.rest = some .leftParen → ∃ results,
        parameters scope (typeExpr scope) false list.rest = .ok results ∧
          parsed.value.results = results.value.params) ∧
      ((nextKind list.rest).any startsResult = true → ∃ result,
        typeExpr scope list.rest = .ok result ∧ parsed.value.results = [⟨"", result.value⟩]) := by
  obtain ⟨list, _, hlist, hresults, rfl⟩ := bind_eq_ok.1 h
  rw [bind_of_ok (at?_eq _ _), peek_first] at hresults
  refine ⟨list, hlist, ?_⟩
  split at hresults
  next hparen =>
    obtain ⟨results, _, hread, hpure, rfl⟩ := bind_eq_ok.1 hresults
    cases hpure
    have hparen : nextKind list.rest = some .leftParen := by simpa using hparen
    exact ⟨rfl, fun _ => ⟨results, hread, rfl⟩, fun hstarts => by simp [hparen, startsResult] at hstarts⟩
  next hparen =>
    split at hresults
    next hstarts =>
      obtain ⟨result, _, hread, hpure, rfl⟩ := bind_eq_ok.1 hresults
      cases hpure
      exact ⟨rfl, fun h => by simp [h] at hparen, fun _ => ⟨result, hread, rfl⟩⟩
    next hstarts =>
      cases hresults
      exact ⟨rfl, fun h => by simp [h] at hparen, fun h => absurd h hstarts⟩

/-- The types of parameters and results are among the types of the signature. -/
theorem readsIn_signature {parsed : Parsed Signature}
    (h : signature scope (typeExpr scope) tokens = .ok parsed) (hat : SignatureAt scope tokens us) :
    scope.ReadsIn us parsed.value.types := by
  obtain ⟨list, hlist, hparams, hresults, hresult⟩ := signature_cases h
  have htypes : parsed.value.types =
      list.value.params.map Param.type ++ parsed.value.results.map Param.type := by
    rw [Signature.types, List.map_append, hparams]
  rw [htypes]
  cases hat with
  | param hparen hat =>
    exact (readsIn_parameters hparen hlist hat).mono (List.subset_append_left _ _)
  | results hlist' hrest hparen hat =>
    cases hlist.symm.trans hlist'
    obtain ⟨results, hread, heq⟩ := hresults (by rw [hrest, nextKind]; exact congrArg some hparen)
    rw [heq]
    rw [hrest] at hread
    exact (readsIn_parameters hparen hread hat).mono (List.subset_append_right _ _)
  | result hlist' hstarts =>
    cases hlist.symm.trans hlist'
    obtain ⟨result, hread, heq⟩ := hresult hstarts
    exact .of_ok hread (by simp [heq])

/-! ### Reading between braces -/

/-- In a round an item is read, and a semicolon behind it unless the list ends there. -/
theorem bracedRound_cases {α : Type} {item : Parser α} {more : Parser (List α)}
    {parsed : Parsed (List α)} (hopen : nextKind (behindSemicolons tokens) ≠ some .rightBrace)
    (h : bracedRound item more tokens = .ok parsed) : ∃ first behind others,
      item (behindSemicolons tokens) = .ok first ∧
        ((∃ semicolon, semicolon.kind = .semicolon ∧ first.rest = semicolon :: behind) ∨
          nextKind first.rest = some .rightBrace) ∧
        more behind = .ok others ∧ parsed.value = first.value :: others.value := by
  have hothers (a : α) {behind : List Token} {second : Parsed (List α)}
      (h : (more >>= fun others => pure (a :: others)) behind = .ok second) :
      ∃ others, more behind = .ok others ∧ second.value = a :: others.value := by
    obtain ⟨others, hmore, rfl⟩ := bind_pure_eq_ok.1 h
    exact ⟨others, hmore, rfl⟩
  have hskip : skipSemicolons tokens = .ok ⟨(), [], behindSemicolons tokens⟩ := rfl
  rw [bracedRound, bind_of_ok hskip, bind_of_ok (accept_of_ne hopen), if_neg Bool.false_ne_true] at h
  obtain ⟨first, second, hfirst, hbehind, rfl⟩ := bind_eq_ok.1 h
  rw [bind_of_ok (at?_eq _ _)] at hbehind
  split at hbehind
  next hbrace =>
    obtain ⟨others, hmore, hvalue⟩ := hothers _ hbehind
    exact ⟨first, _, others, hfirst, .inr (by simpa using hbrace), hmore, hvalue⟩
  next =>
    obtain ⟨semicolon, _, hsemicolon, hlast, rfl⟩ := bind_eq_ok.1 hbehind
    obtain ⟨others, hmore, hvalue⟩ := hothers _ hlast
    rcases hrest : first.rest with _ | ⟨t, rest⟩
    · rw [hrest] at hsemicolon
      cases hsemicolon
    · rw [hrest, expect] at hsemicolon
      split at hsemicolon
      next ht =>
        cases hsemicolon
        exact ⟨first, rest, others, hfirst, .inl ⟨t, ht, hrest⟩, hmore, hvalue⟩
      next => cases hsemicolon

section

variable {α : Type} {item : Parser α} {place : List Token → List Token → Prop}
  {types : α → List GoType}

/-- The types of the items are among the types of the body, item by item. -/
theorem readsIn_braced
    (hloop : bounded (braced item) = bracedRound item (bounded (braced item)))
    (hitem : ∀ {tokens us parsed}, item tokens = .ok parsed → place tokens us →
      scope.ReadsIn us (types parsed.value))
    (hat : BracedAt item place tokens us) {parsed : Parsed (List α)}
    (h : bounded (braced item) tokens = .ok parsed) :
    scope.ReadsIn us (parsed.value.flatMap types) := by
  induction hat generalizing parsed with
  | first hopen hat =>
    rw [hloop] at h
    obtain ⟨first, _, others, hfirst, -, -, hvalue⟩ := bracedRound_cases hopen h
    rw [hvalue, List.flatMap_cons]
    exact (hitem hfirst hat).mono (List.subset_append_left _ _)
  | @further tokens rest us a semicolon hopen ha hrest hsemicolon _ ih =>
    rw [hloop] at h
    obtain ⟨first, behind, others, hfirst, hbehind, hothers, hvalue⟩ := bracedRound_cases hopen h
    cases ha.symm.trans hfirst
    obtain rfl : rest = behind := by
      rcases hbehind with ⟨semicolon', -, hsplit⟩ | hbrace
      · exact (List.cons.inj (hrest.symm.trans hsplit)).2
      · rw [hrest] at hbrace
        exact absurd (hsemicolon.symm.trans (Option.some.inj hbrace)) (by decide)
    rw [hvalue, List.flatMap_cons]
    exact (ih hothers).mono (List.subset_append_right _ _)

end

/-- The types of a method, or an embedded type, are among the types of the element. -/
theorem readsIn_element {parsed : Parsed Element}
    (h : element scope (typeExpr scope) tokens = .ok parsed) (hat : ElementAt scope tokens us) :
    scope.ReadsIn us parsed.value.types := by
  rw [element_eq, peek_first, peek_second] at h
  cases hat with
  | @method t rest _ ht hparen hat =>
    have hname : nextKind (t :: rest) = some .identifier := congrArg some ht
    rw [if_pos hname, List.tail_cons, hparen, elementBehindName, if_pos rfl,
      bind_of_ok (show name (t :: rest) = .ok ⟨t, [], rest⟩ from if_pos ht)] at h
    obtain ⟨s, hs, rfl⟩ := bind_pure_eq_ok.1 h
    exact readsIn_signature hs hat
  | embedded hmethod htilde =>
    have hembedded : embeddedElement (typeExpr scope) tokens = .ok parsed := by
      by_cases hname : nextKind tokens = some .identifier
      · rwa [if_pos hname, elementBehindName, if_neg (hmethod hname)] at h
      · rwa [if_neg hname, if_neg htilde] at h
    rw [embeddedElement, bind_of_ok (show here tokens = .ok ⟨_, [], tokens⟩ from rfl)] at hembedded
    obtain ⟨inner, _, hinner, hbehind, rfl⟩ := bind_eq_ok.1 hembedded
    rw [bind_of_ok (at?_eq _ _)] at hbehind
    split at hbehind
    next => cases hbehind
    next =>
      cases hbehind
      exact .of_ok hinner (List.mem_singleton_self _)

/-- A line declares one field at least. -/
theorem names_ne_nil {parsed : Parsed (List Token)} (h : names tokens = .ok parsed) :
    parsed.value ≠ [] := by
  obtain ⟨ts, rest, rfl, hnames⟩ := names_eq_ok.1 h
  cases hnames with
  | last | more => exact List.cons_ne_nil _ _

/-- The type of a line of fields is the type of each field in it. -/
theorem readsIn_fields {parsed : Parsed (List Field)}
    (h : fields (typeExpr scope) tokens = .ok parsed) (hat : LineAt tokens us) :
    scope.ReadsIn us (parsed.value.map Field.type) := by
  have hembedded {tokens : List Token} (h : embeddedField (typeExpr scope) tokens = .ok parsed) :
      scope.ReadsIn tokens (parsed.value.map Field.type) := by
    obtain ⟨inner, _, hinner, hbehind, rfl⟩ := bind_eq_ok.1 h
    obtain ⟨_, -, rfl⟩ := bind_pure_eq_ok.1 hbehind
    exact .of_ok hinner (List.mem_singleton_self _)
  rw [fields, peek_first] at h
  cases hat with
  | @named declared hstart hnext hnames =>
    rw [hstart] at h
    dsimp only at h
    rw [peek_second, if_neg (by simp [hnext])] at h
    obtain ⟨declared', _, hnames', hbehind, rfl⟩ := bind_eq_ok.1 h
    cases hnames.symm.trans hnames'
    obtain ⟨inner, _, hinner, htag, rfl⟩ := bind_eq_ok.1 hbehind
    obtain ⟨_, -, rfl⟩ := bind_pure_eq_ok.1 htag
    obtain ⟨first, others, hfirst⟩ := List.exists_cons_of_ne_nil (names_ne_nil hnames)
    exact .of_ok hinner (by simp [hfirst])
  | embedded hstart =>
    rcases hstart with hstar | ⟨hname, hnext⟩
    · rw [hstar] at h
      exact hembedded h
    · rw [hname] at h
      dsimp only at h
      rw [peek_second, if_pos hnext] at h
      exact hembedded h

/-- What occurs in the components of a type occurs in the type. -/
theorem Scope.ReadsIn.inside {types : List GoType} {t : GoType} (h : scope.ReadsIn us types)
    (hsub : types ⊆ t.components) : scope.ReadsIn us [t] := by
  obtain ⟨inner, hinner, c, hc, hhas⟩ := h
  exact ⟨inner, hinner, t, List.mem_singleton_self _, .inside (hsub hc) hhas⟩

/-- The type that something is wrapped around is read from where the wrapping begins. -/
theorem readsIn_wrapped {wrap : GoType → GoType} {parsed : Parsed GoType}
    (h : (typeExpr scope >>= fun elem => pure (wrap elem)) us = .ok parsed)
    (hsub : ∀ elem, elem ∈ (wrap elem).components) : scope.ReadsIn us [parsed.value] := by
  obtain ⟨inner, hinner, rfl⟩ := bind_pure_eq_ok.1 h
  exact .inside (.of_ok hinner (List.mem_singleton_self _)) (by simpa using hsub inner.value)

/-- The length of an array is passed, and then its element type is read. -/
theorem readsIn_array {parsed : Parsed GoType} {length rest : List Token}
    (hlength : lengthTokens 0 tokens = some (length, rest))
    (h : (arrayLength >>= fun length => typeExpr scope >>= fun elem => pure (.array length elem) :
      Parser GoType) tokens = .ok parsed) : scope.ReadsIn rest [parsed.value] := by
  obtain ⟨text, _, hread, hbehind, rfl⟩ := bind_eq_ok.1 h
  rw [arrayLength_of_found hlength] at hread
  split at hread
  next => cases hread
  next =>
    cases hread
    exact readsIn_wrapped hbehind fun _ => List.mem_singleton_self _

/-- What stands in the elements of an interface occurs in its methods or among its embedded types. -/
theorem readsIn_interfaceBody {body : Parsed Interface} {brace : Token} {rest : List Token}
    (hbrace : brace.kind = .leftBrace)
    (h : interfaceBody scope (typeExpr scope) (brace :: rest) = .ok body)
    (hat : BracedAt (element scope (typeExpr scope)) (ElementAt scope) rest us) :
    scope.ReadsIn us (GoType.interface body.value).components := by
  rw [interfaceBody,
    bind_of_ok (show expect _ _ (brace :: rest) = .ok ⟨brace, [], rest⟩ from if_pos hbrace)] at h
  obtain ⟨elements, helements, rfl⟩ := bind_pure_eq_ok.1 h
  refine (readsIn_braced loop_elements.eq_round readsIn_element hat helements).mono fun c hc => ?_
  -- the types of an element are those of a method, or an embedded type
  obtain ⟨e, he, hc⟩ := List.mem_flatMap.1 hc
  cases e with
  | method m =>
    exact List.mem_append_left _ (List.mem_flatMap.2 ⟨m, List.mem_filterMap.2 ⟨_, he, rfl⟩, hc⟩)
  | embed s =>
    obtain rfl := List.mem_singleton.1 hc
    exact List.mem_append_right _ (List.mem_filterMap.2 ⟨_, he, rfl⟩)

/-- What stands in the lines of a struct occurs in its fields. -/
theorem readsIn_structBody {parsed : Parsed (List Field)} {brace : Token} {rest : List Token}
    (hbrace : brace.kind = .leftBrace) (h : structBody (typeExpr scope) (brace :: rest) = .ok parsed)
    (hat : BracedAt (fields (typeExpr scope)) LineAt rest us) :
    scope.ReadsIn us (GoType.struct parsed.value).components := by
  rw [structBody,
    bind_of_ok (show expect _ _ (brace :: rest) = .ok ⟨brace, [], rest⟩ from if_pos hbrace)] at h
  obtain ⟨lines, hlines, rfl⟩ := bind_pure_eq_ok.1 h
  refine (readsIn_braced loop_fields.eq_round readsIn_fields hat hlines).mono ?_
  simp [GoType.components, List.map_flatten, List.flatMap_def]

/-- **What stands in a type is read with it**, and occurs in it. -/
theorem readsIn_of_typeAt {parsed : Parsed GoType} (h : typeExpr scope tokens = .ok parsed)
    (hat : scope.TypeAt tokens us) : scope.ReadsIn us [parsed.value] := by
  cases hat with
  | pointer ht =>
    rw [typeExpr_star ht] at h
    exact readsIn_wrapped h fun _ => List.mem_singleton_self _
  | slice ht hu =>
    rw [typeExpr_bracket ht, bind_of_ok (accept_of_eq hu _)] at h
    exact readsIn_wrapped h fun _ => List.mem_singleton_self _
  | array ht hopen hlength =>
    rw [typeExpr_bracket ht, bind_of_ok (accept_of_ne hopen), if_neg Bool.false_ne_true] at h
    exact readsIn_array hlength h
  | key ht hu =>
    rw [typeExpr_map ht, bind_of_ok (show expect _ _ (_ :: us) = .ok ⟨_, [], us⟩ from if_pos hu)] at h
    obtain ⟨key, _, hkey, hbehind, rfl⟩ := bind_eq_ok.1 h
    obtain ⟨_, _, -, hvalue, rfl⟩ := bind_eq_ok.1 hbehind
    obtain ⟨value, -, rfl⟩ := bind_pure_eq_ok.1 hvalue
    exact .inside (.of_ok hkey List.mem_cons_self) (List.Subset.refl [key.value, value.value])
  | @value t u v tokens rest key ht hu hkey hrest hv =>
    -- the key that is read first is the one that leads to this place
    rw [typeExpr_map ht,
      bind_of_ok (show expect _ _ (u :: tokens) = .ok ⟨u, [], tokens⟩ from if_pos hu)] at h
    obtain ⟨key', _, hkey', hbehind, rfl⟩ := bind_eq_ok.1 h
    cases hkey.symm.trans hkey'
    rw [hrest, bind_of_ok (show expect _ _ (v :: us) = .ok ⟨v, [], us⟩ from if_pos hv)] at hbehind
    have hvalue := readsIn_wrapped hbehind fun elem => show elem ∈ [key.value, elem] by simp
    exact hvalue
  | chan ht hnext =>
    rw [typeExpr_chan ht, bind_of_ok (accept_of_ne hnext)] at h
    exact readsIn_wrapped h fun _ => List.mem_singleton_self _
  | send ht hu =>
    rw [typeExpr_chan ht, bind_of_ok (accept_of_eq hu _)] at h
    exact readsIn_wrapped h fun _ => List.mem_singleton_self _
  | receive ht hu =>
    rw [typeExpr_arrow ht,
      bind_of_ok (show expect _ _ (_ :: us) = .ok ⟨_, [], us⟩ from if_pos hu)] at h
    exact readsIn_wrapped h fun _ => List.mem_singleton_self _
  | func ht hat =>
    rw [typeExpr_func ht] at h
    obtain ⟨s, hs, rfl⟩ := bind_pure_eq_ok.1 h
    exact .inside (readsIn_signature hs hat) (List.Subset.refl _)
  | interface ht hu hat =>
    rw [typeExpr_interface ht] at h
    obtain ⟨body, hbody, rfl⟩ := bind_pure_eq_ok.1 h
    exact .inside (readsIn_interfaceBody hu hbody hat) (List.Subset.refl _)
  | struct ht hu hat =>
    rw [typeExpr_struct ht] at h
    obtain ⟨lines, hlines, rfl⟩ := bind_pure_eq_ok.1 h
    exact .inside (readsIn_structBody hu hlines hat) (List.Subset.refl _)
  | paren ht =>
    rw [typeExpr_paren ht] at h
    obtain ⟨inner, _, hinner, hbehind, rfl⟩ := bind_eq_ok.1 h
    obtain ⟨_, -, rfl⟩ := bind_pure_eq_ok.1 hbehind
    exact .of_ok hinner (List.mem_singleton_self _)

/-- **What stands in a type at any depth is read with it**, and occurs in it. -/
theorem readsIn_of_places {parsed : Parsed GoType} (h : typeExpr scope tokens = .ok parsed)
    (hat : scope.Places tokens us) : scope.ReadsIn us [parsed.value] := by
  induction hat with
  | refl => exact .of_ok h (List.mem_singleton_self _)
  | tail _ hat ih =>
    obtain ⟨inner, hinner, t, ht, hhas⟩ := ih
    obtain ⟨deeper, hdeeper, t', ht', hhas'⟩ := readsIn_of_typeAt hinner hat
    obtain rfl := List.mem_singleton.1 ht'
    exact ⟨deeper, hdeeper, t, ht, hhas.trans hhas'⟩

end

end Multicast.Syntax
