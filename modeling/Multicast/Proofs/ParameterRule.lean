import Multicast.Proofs.Descents
import Multicast.Proofs.Extraction
import Multicast.Proofs.Verdicts

/-!
# How parameter lists are settled

What a parameter list says is settled in two steps. The list is written entry by entry
(`Entry.Lists`), and reading it finds these entries and no others (`entries_of_parseAll`,
`parseAll_of_lists`). Then it shows what the entries stand for (`Settled`): if none of them has both a name
and a type, all are types, and otherwise all have names, and a lone name shares the type of the nearest entry
behind it that has one.

Entries that cannot be settled are listed as well (`Entry.Conflict`): three dots in a wrong place, types
without names among names, names that are left without a type. Reading a list fails exactly if there is
such a conflict among its entries (`parameters_settled`).

## Soundness and completeness of settling

The reader of a list makes entries of it and then goes through the entries from left to right, with the
names that wait for a type kept aside. Whatever comes out of that is what the entries stand for
(`standFor_of_resolve`), and no entry is in conflict. Conversely, entries without a conflict are settled
(`exists_resolve`). Both are inductions on the entries, and the names that wait are what the statement has
to be general in.

The rule for three dots is stated by where they stand (`DotsPlaced`): at the last entry, where they are
allowed, and not behind names that wait.
-/

namespace Multicast.Syntax

open Source Multicast.Syntax.Parser

/-! ### Entries as they are written

Whether a name alone is a name or a type is not told by the entry. It is by the list, and so the reader
keeps such an entry as it is. -/

/-- **What is known of a reader of types**: it does not begin with a token of these kinds, and it reads a
lone name unless a dot stands behind it. -/
structure TypeReader (type : Parser GoType) : Prop where
  begins : ∀ {tokens parsed}, type tokens = .ok parsed → ∃ t words,
    tokens = t :: (words ++ parsed.rest) ∧
      (t.kind ≠ .comma ∧ t.kind ≠ .rightParen ∧ t.kind ≠ .dot ∧ t.kind ≠ .ellipsis)
  lone : ∀ {t words rest written references}, t.kind = .identifier →
    type (t :: (words ++ rest)) = .ok ⟨written, references, rest⟩ →
      (words = [] ↔ nextKind (words ++ rest) ≠ some .dot)

namespace Entry

/-- The name of an entry. A name that stands alone counts as one. -/
def name? : Entry → Option String
  | lone name _ | named name _ _ _ => some name
  | unnamed .. => none

/-- Whether a name stands alone. -/
def isLone : Entry → Bool
  | lone .. => true
  | _ => false

/-- The type that is written in an entry. -/
def type? : Entry → Option GoType
  | lone .. => none
  | named _ _ type _ | unnamed _ type _ => some type

/-- The type that an entry gives to parameters: a slice, if three dots stand in front of it. -/
def given? (e : Entry) : Option GoType :=
  e.type?.map fun t => if e.hasDots then .slice t else t

variable (type : Parser GoType)

/-- **An entry as it is written** in front of what is behind it: a name alone, a name and a type, or a type
that is not a name alone. Three dots may stand in front of the type. -/
inductive IsWritten (behind : List Token) : Entry → List Token → Prop
  | lone {t : Token} (ht : t.kind = .identifier) : IsWritten behind (.lone t.text t.pos) [t]
  | named {t : Token} {dots : Option Token} {words : List Token} {written : GoType}
    {references : List Reference} (ht : t.kind = .identifier) (hdots : ∀ d ∈ dots, d.kind = .ellipsis)
    (hwords : type (words ++ behind) = .ok ⟨written, references, behind⟩) :
    IsWritten behind (.named t.text dots.isSome written t.pos) (t :: (dots.toList ++ words))
  | unnamed {t : Token} {dots : Option Token} {words more : List Token} {written : GoType}
    {references : List Reference} (hdots : ∀ d ∈ dots, d.kind = .ellipsis)
    (hwords : type (words ++ behind) = .ok ⟨written, references, behind⟩)
    (hfirst : dots.toList ++ words = t :: more) (hlone : ¬(t.kind = .identifier ∧ more = [])) :
    IsWritten behind (.unnamed dots.isSome written t.pos) (t :: more)

/-- **The entries of a list as it is written** up to its closing parenthesis, with commas between them. A
comma may follow the last one. -/
inductive Lists : List Entry → List Token → List Token → Prop
  | close {paren : Token} {rest : List Token} (hparen : paren.kind = .rightParen) :
    Lists [] (paren :: rest) rest
  | last {e : Entry} {words : List Token} {paren : Token} {rest : List Token}
    (he : e.IsWritten type (paren :: rest) words) (hparen : paren.kind = .rightParen) :
    Lists [e] (words ++ paren :: rest) rest
  | more {e : Entry} {words : List Token} {comma : Token} {others : List Token} {entries : List Entry}
    {rest : List Token} (he : e.IsWritten type (comma :: others) words) (hcomma : comma.kind = .comma)
    (hmore : Lists entries others rest) : Lists (e :: entries) (words ++ comma :: others) rest

end Entry

/-! ### Reading entries

What is read is a list as it is written, and what is written as a list is read. Between the two stands
only what is known of the reader of types: what it may begin with, and what it makes of a single name. -/

section

variable {scope : Scope} {type : Parser GoType} (hr : TypeReader type)

include hr

/-- A type behind three dots, or without them. -/
theorem dotted_eq_ok {make : Bool → GoType → Entry} {tokens : List Token} {parsed : Parsed Entry} :
    (accept .ellipsis >>= fun dots => type >>= fun written => pure (make dots written) : Parser Entry)
        tokens = .ok parsed ↔
      ∃ (dots : Option Token) (words : List Token) (written : GoType), (∀ d ∈ dots, d.kind = .ellipsis) ∧
        tokens = dots.toList ++ (words ++ parsed.rest) ∧
          type (words ++ parsed.rest) = .ok ⟨written, parsed.references, parsed.rest⟩ ∧
            parsed.value = make dots.isSome written := by
  have hbehind {dots : Bool} {tokens : List Token} : (type >>= fun written => pure (make dots written) :
        Parser Entry) tokens = .ok parsed ↔ ∃ (words : List Token) (written : GoType),
      tokens = words ++ parsed.rest ∧
        type (words ++ parsed.rest) = .ok ⟨written, parsed.references, parsed.rest⟩ ∧
          parsed.value = make dots written := by
    constructor
    · intro h
      obtain ⟨first, hfirst, rfl⟩ := bind_pure_eq_ok.1 h
      obtain ⟨t, words, rfl, -⟩ := hr.begins hfirst
      exact ⟨t :: words, first.value, rfl, hfirst, rfl⟩
    · rintro ⟨words, written, rfl, hwords, hvalue⟩
      exact bind_pure_eq_ok.2 ⟨_, hwords, by rw [← hvalue]⟩
  by_cases hnext : nextKind tokens = some .ellipsis
  · obtain ⟨t, rest, rfl, ht⟩ := exists_cons_of_nextKind hnext
    rw [bind_of_ok (accept_of_eq ht rest), hbehind]
    constructor
    · rintro ⟨words, written, rfl, hwords, hvalue⟩
      exact ⟨some t, words, written, by simpa using ht, rfl, hwords, hvalue⟩
    · rintro ⟨dots, words, written, hdots, hsplit, hwords, hvalue⟩
      -- no type begins with dots, so the dots are not read as the type
      cases dots with
      | none =>
        obtain ⟨t', words', hbegins, hkind⟩ := hr.begins hwords
        rw [Option.toList_none, List.nil_append, hbegins] at hsplit
        cases hsplit
        exact absurd ht hkind.2.2.2
      | some d =>
        cases hsplit
        exact ⟨words, written, rfl, hwords, hvalue⟩
  · rw [bind_of_ok (accept_of_ne hnext), hbehind]
    constructor
    · rintro ⟨words, written, hsplit, hwords, hvalue⟩
      exact ⟨none, words, written, by simp, hsplit, hwords, hvalue⟩
    · rintro ⟨dots, words, written, hdots, hsplit, hwords, hvalue⟩
      cases dots with
      | none => exact ⟨words, written, hsplit, hwords, hvalue⟩
      | some d =>
        rw [hsplit] at hnext
        exact absurd (congrArg some (hdots d rfl)) hnext

/-- An entry is read as it is written. -/
theorem Entry.parse_of_isWritten {e : Entry} {words : List Token} {next : Token} {rest : List Token}
    (h : e.IsWritten type (next :: rest) words)
    (hnext : next.kind = .comma ∨ next.kind = .rightParen) :
    ∃ references, Entry.parse type (words ++ next :: rest) = .ok ⟨e, references, next :: rest⟩ := by
  cases h with
  | lone ht =>
    refine ⟨[], if_pos ⟨ht, ?_⟩⟩
    simpa using hnext
  | @named t dots words written references ht hdots hwords =>
    obtain ⟨t', words', hbegins, hkind⟩ := hr.begins hwords
    have hbehind : nextKind (dots.toList ++ (words ++ next :: rest)) ≠ some .comma ∧
        nextKind (dots.toList ++ (words ++ next :: rest)) ≠ some .rightParen ∧
          nextKind (dots.toList ++ (words ++ next :: rest)) ≠ some .dot := by
      cases dots with
      | none => simpa [hbegins, nextKind] using ⟨hkind.1, hkind.2.1, hkind.2.2.1⟩
      | some d => simp [nextKind, hdots d rfl]
    refine ⟨references, ?_⟩
    rw [List.cons_append, List.append_assoc, Entry.parse, if_neg, if_pos ⟨ht, hbehind.2.2⟩]
    · exact (dotted_eq_ok hr).2 ⟨dots, words, written, hdots, rfl, hwords, rfl⟩
    · exact fun h => h.2.elim hbehind.1 hbehind.2.1
  | @unnamed t dots words more written references hdots hwords hfirst hlone =>
    have hread : (accept .ellipsis >>= fun dots => type >>= fun written =>
        pure (.unnamed dots written t.pos) : Parser Entry) (dots.toList ++ (words ++ next :: rest)) =
          .ok ⟨.unnamed dots.isSome written t.pos, references, next :: rest⟩ :=
      (dotted_eq_ok hr).2 ⟨dots, words, written, hdots, rfl, hwords, rfl⟩
    rw [← List.append_assoc, hfirst] at hread
    have hdot : t.kind = .identifier → nextKind (more ++ next :: rest) = some .dot := by
      intro ht
      cases dots with
      | some d =>
        cases hfirst
        rw [hdots t rfl] at ht
        cases ht
      | none =>
        obtain rfl : words = t :: more := hfirst
        by_contra hdot
        exact hlone ⟨ht, (hr.lone ht hwords).2 hdot⟩
    refine ⟨references, ?_⟩
    rw [List.cons_append, Entry.parse, if_neg, if_neg]
    · exact hread
    · exact fun h => h.2 (hdot h.1)
    · rintro ⟨ht, hcomma | hparen⟩
      · cases hcomma.symm.trans (hdot ht)
      · cases hparen.symm.trans (hdot ht)

/-- What is read as an entry is written so. -/
theorem Entry.isWritten_of_parse {tokens : List Token} {parsed : Parsed Entry}
    (h : Entry.parse type tokens = .ok parsed) :
    ∃ words, tokens = words ++ parsed.rest ∧ parsed.value.IsWritten type parsed.rest words := by
  cases tokens with
  | nil => cases h
  | cons t rest =>
    rw [Entry.parse] at h
    split at h
    next hlone =>
      cases h
      exact ⟨[t], rfl, .lone hlone.1⟩
    next hlone =>
      split at h
      next hnamed =>
        obtain ⟨dots, words, written, hdots, rfl, hwords, hvalue⟩ := (dotted_eq_ok hr).1 h
        refine ⟨t :: (dots.toList ++ words), by simp, ?_⟩
        rw [hvalue]
        exact .named hnamed.1 hdots hwords
      next hnamed =>
        obtain ⟨dots, words, written, hdots, hsplit, hwords, hvalue⟩ := (dotted_eq_ok hr).1 h
        refine ⟨dots.toList ++ words, by rw [hsplit, List.append_assoc], ?_⟩
        rw [hvalue]
        cases dots with
        | some d =>
          cases hsplit
          exact .unnamed hdots hwords rfl fun h => by cases (hdots t rfl).symm.trans h.1
        | none =>
          obtain ⟨t', words', hbegins, -⟩ := hr.begins hwords
          obtain rfl : words = t' :: words' := List.append_cancel_right hbegins
          cases hsplit
          refine .unnamed hdots hwords rfl fun h => hnamed ⟨h.1, ?_⟩
          exact (hr.lone h.1 hwords).1 h.2

/-- An entry does not begin as a list ends. -/
theorem Entry.IsWritten.begins {e : Entry} {behind words : List Token} (h : e.IsWritten type behind words) :
    ∃ t more, words = t :: more ∧ t.kind ≠ .rightParen := by
  cases h with
  | lone ht | named ht => exact ⟨_, _, rfl, by simp [ht]⟩
  | @unnamed t dots words more written references hdots hwords hfirst =>
    refine ⟨_, _, rfl, ?_⟩
    cases dots with
    | some d =>
      cases hfirst
      simp [hdots t rfl]
    | none =>
      obtain rfl : words = t :: more := hfirst
      obtain ⟨t', words', hbegins, hkind⟩ := hr.begins hwords
      rw [(List.cons.inj hbegins).1]
      exact hkind.2.1

omit hr in
/-- In a round an entry is read, and a comma behind it unless the list ends there. -/
theorem further_eq_ok {more : Parser (List Entry)} {tokens : List Token} {parsed : Parsed (List Entry)}
    (hopen : nextKind tokens ≠ some .rightParen) :
    Entry.further type more tokens = .ok parsed ↔ ∃ first behind others,
      Entry.parse type tokens = .ok first ∧
        ((∃ comma, comma.kind = .comma ∧ first.rest = comma :: behind) ∨
          nextKind behind = some .rightParen ∧ first.rest = behind) ∧
        more behind = .ok others ∧
        parsed = ⟨first.value :: others.value, first.references ++ others.references, others.rest⟩ := by
  rw [Entry.further, bind_of_ok (accept_of_ne hopen), if_neg Bool.false_ne_true]
  constructor
  · intro h
    obtain ⟨first, second, hfirst, hbehind, rfl⟩ := bind_eq_ok.1 h
    -- there is a comma or the end of the list, and without both the round fails
    by_cases hcomma : nextKind first.rest = some .comma
    · obtain ⟨comma, behind, hrest, hkind⟩ := exists_cons_of_nextKind hcomma
      rw [hrest, bind_of_ok (accept_of_eq hkind behind), if_pos rfl, bind_pure_eq_ok] at hbehind
      obtain ⟨others, hmore, rfl⟩ := hbehind
      exact ⟨first, behind, others, hfirst, .inl ⟨comma, hkind, hrest⟩, hmore, rfl⟩
    · rw [bind_of_ok (accept_of_ne hcomma), if_neg Bool.false_ne_true, bind_of_ok (at?_eq _ _)] at hbehind
      by_cases hparen : nextKind first.rest = some .rightParen
      · rw [hparen, if_pos (beq_self_eq_true _), bind_pure_eq_ok] at hbehind
        obtain ⟨others, hmore, rfl⟩ := hbehind
        exact ⟨first, _, others, hfirst, .inr ⟨hparen, rfl⟩, hmore, rfl⟩
      · rw [if_neg (by simpa using hparen)] at hbehind
        cases hbehind
  · rintro ⟨first, behind, others, hfirst, hbehind, hmore, rfl⟩
    have hsecond : (more >>= fun others => pure (first.value :: others)) behind =
        .ok ⟨first.value :: others.value, others.references, others.rest⟩ :=
      bind_pure_eq_ok.2 ⟨others, hmore, rfl⟩
    refine bind_eq_ok.2 ⟨first, ⟨_, _, _⟩, hfirst, ?_, rfl⟩
    obtain ⟨comma, hkind, hrest⟩ | ⟨hparen, hrest⟩ := hbehind
    · rw [hrest, bind_of_ok (accept_of_eq hkind behind)]
      exact hsecond
    · rw [hrest, bind_of_ok (accept_of_ne (by simp [hparen])), if_neg Bool.false_ne_true,
        bind_of_ok (at?_eq _ _), hparen]
      exact hsecond

/-- A list that begins with its closing parenthesis has no entries. -/
theorem Entry.Lists.of_paren {entries : List Entry} {paren : Token} {behind rest : List Token}
    (h : Entry.Lists type entries (paren :: behind) rest) (hparen : paren.kind = .rightParen) :
    entries = [] ∧ rest = behind := by
  generalize htokens : paren :: behind = tokens at h
  cases h with
  | close =>
    cases htokens
    exact ⟨rfl, rfl⟩
  | last he | more he =>
    obtain ⟨t, more, rfl, ht⟩ := he.begins hr
    cases htokens
    exact absurd hparen ht

/-- **What is read as entries is written so.** -/
theorem lists_of_parseAll {n : Nat} {tokens : List Token} {parsed : Parsed (List Entry)}
    (h : Entry.parseAll type n tokens = .ok parsed) : Entry.Lists type parsed.value tokens parsed.rest := by
  induction n generalizing tokens parsed with
  | zero => cases h
  | succ n ih =>
    by_cases hclose : nextKind tokens = some .rightParen
    · obtain ⟨t, rest, rfl, ht⟩ := exists_cons_of_nextKind hclose
      rw [Entry.parseAll, bind_of_ok (accept_of_eq ht rest)] at h
      cases h
      exact .close ht
    · obtain ⟨first, behind, others, hfirst, hbehind, hothers, rfl⟩ := (further_eq_ok hclose).1 h
      obtain ⟨words, rfl, hwritten⟩ := Entry.isWritten_of_parse hr hfirst
      have hlists := ih hothers
      obtain ⟨comma, hkind, hrest⟩ | ⟨hparen, hrest⟩ := hbehind
      · rw [hrest] at hwritten ⊢
        exact .more hwritten hkind hlists
      · obtain ⟨paren, rest, rfl, hkind⟩ := exists_cons_of_nextKind hparen
        rw [hrest] at hwritten ⊢
        obtain ⟨hnone, hends⟩ := hlists.of_paren hr hkind
        rw [hnone, hends]
        exact .last hwritten hkind

/-- **Entries are read as they are written.** -/
theorem parseAll_of_lists {entries : List Entry} {tokens rest : List Token}
    (h : Entry.Lists type entries tokens rest) {n : Nat} (hn : tokens.length < n) :
    ∃ references, Entry.parseAll type n tokens = .ok ⟨entries, references, rest⟩ := by
  induction h generalizing n with
  | close hparen =>
    obtain ⟨n, rfl⟩ := Nat.exists_eq_succ_of_ne_zero (Nat.ne_zero_of_lt hn)
    exact ⟨_, bind_of_ok (accept_of_eq hparen _)⟩
  | @last e words paren rest he hparen =>
    obtain ⟨references, hfirst⟩ := Entry.parse_of_isWritten hr he (.inr hparen)
    obtain ⟨t, more, rfl, ht⟩ := he.begins hr
    obtain ⟨n, rfl⟩ : ∃ m, n = m + 2 := ⟨n - 2, by simp at hn; omega⟩
    have hends : Entry.parseAll type (n + 1) (paren :: rest) = .ok ⟨[], [], rest⟩ :=
      bind_of_ok (accept_of_eq hparen rest)
    have hclose : nextKind (paren :: rest) = some .rightParen := congrArg some hparen
    exact ⟨_, (further_eq_ok (by simpa [nextKind] using ht)).2 ⟨_, _, _, hfirst, .inr ⟨hclose, rfl⟩,
      hends, rfl⟩⟩
  | @more e words comma others entries rest he hcomma hmore ih =>
    obtain ⟨references, hfirst⟩ := Entry.parse_of_isWritten hr he (.inl hcomma)
    obtain ⟨t, more, rfl, ht⟩ := he.begins hr
    obtain ⟨n, rfl⟩ := Nat.exists_eq_succ_of_ne_zero (Nat.ne_zero_of_lt hn)
    obtain ⟨references', hothers⟩ := ih (n := n) (by simp at hn; omega)
    exact ⟨_, (further_eq_ok (by simpa [nextKind] using ht)).2 ⟨_, _, _, hfirst,
      .inl ⟨comma, hcomma, rfl⟩, hothers, rfl⟩⟩

end

/-! ### What entries stand for -/

namespace Entry

/-- The type that an entry is by itself: a name alone then means a type. -/
def own (scope : Scope) : Entry → GoType
  | lone name _ => scope.meaning name
  | named _ dots type _ | unnamed dots type _ => if dots then .slice type else type

/-- **Names share types**: each entry has a name, and its parameter has the type that is given by the nearest
entry from there on that gives one. -/
inductive Shares : List Entry → List Param → Prop
  | nil : Shares [] []
  | cons {e : Entry} {entries : List Entry} {name : String} {type : GoType} {params : List Param}
    (hname : e.name? = some name) (htype : (e :: entries).findSome? given? = some type)
    (hmore : Shares entries params) : Shares (e :: entries) (⟨name, type⟩ :: params)

/-- **What the entries of a list stand for**: one parameter each. Either all are types, or all have names;
and the list is variadic if the last entry is written with three dots, for a slice. -/
structure StandFor (scope : Scope) (entries : List Entry) (list : ParameterList) : Prop where
  length : list.params.length = entries.length
  params : ((∀ e ∈ entries, e.isNamed = false) ∧ list.params = entries.map fun e => ⟨"", e.own scope⟩) ∨
    Shares entries list.params
  variadic : list.variadic = true ↔ ∃ e ∈ entries.getLast?, e.hasDots = true
  slice : ∀ e ∈ entries.getLast?, e.hasDots = true →
    ∃ p ∈ list.params.getLast?, ∃ t ∈ e.type?, p.type = .slice t

/-- **Entries that make no list**: three dots in front of the end, at a name that shares its type with the name
in front of it, or where they are barred; a type without a name among names; names that are left without a
type. -/
inductive Conflict (allowDots : Bool) (entries : List Entry) : Prop
  | early {before after : List Entry} {e : Entry} (h : entries = before ++ e :: after)
    (hdots : e.hasDots = true) (hafter : after ≠ [])
  | shared {before after : List Entry} {e e' : Entry} (h : entries = before ++ e :: e' :: after)
    (hlone : e.isLone = true) (hnamed : e'.isNamed = true) (hdots : e'.hasDots = true)
  | barred {e : Entry} (he : e ∈ entries) (hdots : e.hasDots = true) (hallow : allowDots = false)
  | mixed {e e' : Entry} (he : e ∈ entries) (hnamed : e.isNamed = true) (he' : e' ∈ entries)
    (hname : e'.name? = none)
  | untyped {e last : Entry} (he : e ∈ entries) (hnamed : e.isNamed = true)
    (hlast : entries.getLast? = some last) (hlone : last.isLone = true)

end Entry

section

variable {scope : Scope} {allowDots named : Bool} {e : Entry} {entries : List Entry}
  {waiting : List String} {tokens : List Token} {list : Parsed ParameterList}

theorem localType_eq (name : String) (pos : Position) (tokens : List Token) :
    ∃ references, scope.localType name pos tokens = .ok ⟨scope.meaning name, references, tokens⟩ := by
  have hreads : (scope.localType name pos).Reads [] (· = scope.meaning name) fun _ => True :=
    reads_localType name pos
  obtain ⟨_, references, h, rfl⟩ := hreads [] tokens rfl trivial
  exact ⟨references, h⟩

/-- **What settling does with an entry**: a name waits if there are names, anything else is a parameter, and
a name with a type is one after the names that wait for it. -/
theorem resolve_cons_eq_ok (h : resolve scope allowDots named (e :: entries) waiting tokens = .ok list) :
    (e.hasDots = true → allowDots = true ∧ entries = [] ∧ waiting = []) ∧
    ((named = true ∧ ∃ name pos, e = .lone name pos ∧
        resolve scope allowDots named entries (waiting ++ [name]) tokens = .ok list) ∨
      (named = false ∧ e.isNamed = false ∧ ∃ others,
        resolve scope allowDots named entries waiting tokens = .ok others ∧ list.rest = others.rest ∧
          list.value.params = ⟨"", e.own scope⟩ :: others.value.params) ∨
      ∃ name dots type pos others, e = .named name dots type pos ∧
        resolve scope allowDots named entries [] tokens = .ok others ∧ list.rest = others.rest ∧
          list.value.params =
            waiting.map (⟨·, e.own scope⟩) ++ ⟨name, e.own scope⟩ :: others.value.params) := by
  -- the one check of the dots, in the form in which it is said
  have hplaced {dots : Bool} (h : ¬(dots && !(allowDots && entries.isEmpty && waiting.isEmpty)) = true) :
      dots = true → allowDots = true ∧ entries = [] ∧ waiting = [] := by
    rintro rfl
    simpa [and_assoc] using h
  cases e with
  | lone name pos =>
    refine ⟨by simp [Entry.hasDots], ?_⟩
    rw [resolve] at h
    cases named with
    | true => exact .inl ⟨rfl, name, pos, rfl, h⟩
    | false =>
      obtain ⟨references, htype⟩ := localType_eq name pos tokens
      obtain ⟨first, second, hfirst, hsecond, rfl⟩ := bind_eq_ok.1 h
      rw [htype] at hfirst
      cases hfirst
      obtain ⟨others, hothers, rfl⟩ := bind_pure_eq_ok.1 hsecond
      exact .inr (.inl ⟨rfl, rfl, others, hothers, rfl, rfl⟩)
  | named name dots type pos =>
    rw [resolve] at h
    split at h
    next => cases h
    next hdots =>
      obtain ⟨others, hothers, rfl⟩ := bind_pure_eq_ok.1 h
      exact ⟨hplaced hdots, .inr (.inr ⟨name, dots, type, pos, others, rfl, hothers, rfl, rfl⟩)⟩
  | unnamed dots type pos =>
    rw [resolve] at h
    split at h
    next => cases h
    next hdots =>
      split at h
      next => cases h
      next hnamed =>
        obtain ⟨others, hothers, rfl⟩ := bind_pure_eq_ok.1 h
        exact ⟨hplaced hdots, .inr (.inl ⟨by simpa using hnamed, rfl, others, hothers, rfl, rfl⟩)⟩

/-- Settling reads nothing. -/
theorem rest_of_resolve (h : resolve scope allowDots named entries waiting tokens = .ok list) :
    list.rest = tokens := by
  induction entries generalizing waiting list with
  | nil =>
    cases waiting with
    | nil =>
      cases h
      rfl
    | cons => cases h
  | cons e entries ih =>
    obtain ⟨-, _, _, -, hothers⟩ | ⟨-, -, others, hothers, hrest, -⟩ |
      ⟨_, _, _, _, others, -, hothers, hrest, -⟩ := (resolve_cons_eq_ok h).2
    · exact ih hothers
    · exact hrest.trans (ih hothers)
    · exact hrest.trans (ih hothers)

/-- **Three dots stand where they may**: where they are allowed at all, at the end, and with no names that
wait for the type behind them. If `waits` holds, names wait in front of the list. -/
def DotsPlaced (allowDots named waits : Bool) (entries : List Entry) : Prop :=
  ∀ before e after, entries = before ++ e :: after → e.hasDots = true →
    allowDots = true ∧ after = [] ∧ (named = true → (before = [] → waits = false) ∧
      ∀ e' ∈ before.getLast?, e'.isLone = false)

theorem DotsPlaced.tail {waits : Bool} (h : DotsPlaced allowDots named waits (e :: entries)) :
    DotsPlaced allowDots named e.isLone entries := by
  rintro before e' after rfl hdots
  obtain ⟨hallow, hafter, hnames⟩ := h (e :: before) e' after rfl hdots
  refine ⟨hallow, hafter, fun hnamed => ?_⟩
  have hlast := (hnames hnamed).2
  cases before with
  | nil => exact ⟨fun _ => hlast e rfl, by simp⟩
  | cons second before => exact ⟨by simp, by simpa using hlast⟩

theorem dotsPlaced_of_resolve (h : resolve scope allowDots named entries waiting tokens = .ok list) :
    DotsPlaced allowDots named (!waiting.isEmpty) entries := by
  intro before e after hentries hdots
  induction before generalizing entries waiting tokens list with
  | nil =>
    subst hentries
    obtain ⟨hallow, hafter, rfl⟩ := (resolve_cons_eq_ok h).1 hdots
    exact ⟨hallow, hafter, fun _ => ⟨fun _ => rfl, by simp⟩⟩
  | cons first before ih =>
    subst hentries
    obtain ⟨-, hstep⟩ := resolve_cons_eq_ok h
    have hbehind : ∃ (waiting' : List String) (others : Parsed ParameterList),
        resolve scope allowDots named (before ++ e :: after) waiting' tokens = .ok others ∧
          (named = true → first.isLone = true → waiting' ≠ []) := by
      obtain ⟨-, name, pos, rfl, hothers⟩ | ⟨rfl, -, others, hothers, -⟩ |
        ⟨name, dots, type, pos, others, rfl, hothers, -⟩ := hstep
      · exact ⟨_, _, hothers, by simp⟩
      · exact ⟨_, _, hothers, fun h => by cases h⟩
      · exact ⟨_, _, hothers, fun _ h => by cases h⟩
    obtain ⟨waiting', others, hothers, hwaits⟩ := hbehind
    obtain ⟨hallow, hafter, hnames⟩ := ih hothers rfl
    refine ⟨hallow, hafter, fun hnamed => ⟨by simp, ?_⟩⟩
    obtain ⟨hempty, hlast⟩ := hnames hnamed
    cases before with
    | nil =>
      rintro e' he'
      obtain rfl : first = e' := Option.some.inj he'
      exact Bool.eq_false_iff.2 fun hlone => hwaits hnamed hlone (by simpa using hempty rfl)
    | cons second before => simpa using hlast

/-- In a list of types each entry is a parameter without a name. -/
theorem params_of_resolve (h : resolve scope allowDots false entries waiting tokens = .ok list)
    (hnone : ∀ e ∈ entries, e.isNamed = false) :
    list.value.params = entries.map fun e => ⟨"", e.own scope⟩ := by
  induction entries generalizing waiting tokens list with
  | nil =>
    cases waiting with
    | nil =>
      cases h
      rfl
    | cons => cases h
  | cons e entries ih =>
    rw [List.forall_mem_cons] at hnone
    obtain ⟨hnamed, -⟩ | ⟨-, -, others, hothers, -, hparams⟩ | ⟨name, dots, type, pos, others, rfl, -⟩ :=
      (resolve_cons_eq_ok h).2
    · cases hnamed
    · rw [hparams, ih hothers hnone.2, List.map_cons]
    · cases hnone.1

/-- In a list of names the names that wait share the type that is given next. -/
theorem shares_of_resolve (h : resolve scope allowDots true entries waiting tokens = .ok list) :
    ∃ type params, (waiting ≠ [] → entries.findSome? Entry.given? = some type) ∧
      list.value.params = waiting.map (⟨·, type⟩) ++ params ∧ Entry.Shares entries params := by
  induction entries generalizing waiting tokens list with
  | nil =>
    cases waiting with
    | nil =>
      cases h
      exact ⟨.basic "", [], fun h => absurd rfl h, rfl, .nil⟩
    | cons => cases h
  | cons e entries ih =>
    obtain ⟨-, name, pos, rfl, hothers⟩ | ⟨hnamed, -⟩ |
      ⟨name, dots, type, pos, others, rfl, hothers, -, hparams⟩ := (resolve_cons_eq_ok h).2
    · obtain ⟨type, params, htype, hparams, hshares⟩ := ih hothers
      have hnext : (.lone name pos :: entries).findSome? Entry.given? = some type := htype (by simp)
      refine ⟨type, ⟨name, type⟩ :: params, fun _ => hnext, ?_, .cons rfl hnext hshares⟩
      rw [hparams]
      simp
    · cases hnamed
    · obtain ⟨_, params, -, hmore, hshares⟩ := ih hothers
      rw [hmore] at hparams
      exact ⟨_, _, fun _ => rfl, hparams, .cons rfl rfl hshares⟩

theorem Entry.Shares.length_eq {params : List Param} (h : Entry.Shares entries params) :
    params.length = entries.length := by
  induction h with
  | nil => rfl
  | cons _ _ _ ih => rw [List.length_cons, List.length_cons, ih]

/-- The last entry gives its type to the last parameter. -/
theorem Entry.Shares.getLast? {params : List Param} (h : Entry.Shares entries params)
    {last : Entry} (hlast : entries.getLast? = some last) :
    ∃ p ∈ params.getLast?, last.given? = some p.type := by
  induction h with
  | nil => cases hlast
  | @cons e entries name type params hname htype hmore ih =>
    cases hmore with
    | nil =>
      obtain rfl : e = last := Option.some.inj hlast
      refine ⟨_, rfl, ?_⟩
      change e.given? = some type
      rw [← htype, List.findSome?_cons, List.findSome?_nil]
      cases e.given? <;> rfl
    | cons => 
      rw [List.getLast?_cons_cons] at hlast ⊢
      exact ih hlast

theorem Entry.Shares.name_ne {params : List Param} (h : Entry.Shares entries params) (he : e ∈ entries) :
    e.name? ≠ none := by
  induction h with
  | nil => cases he
  | cons hname _ _ ih =>
    rcases List.mem_cons.1 he with rfl | he
    · simp [hname]
    · exact ih he

/-- Types make a list, if three dots stand where they may. -/
theorem settles_types (hnone : ∀ e ∈ entries, e.isNamed = false) {waits : Bool}
    (hdots : DotsPlaced allowDots false waits entries) : Settles scope allowDots false false entries := by
  induction entries generalizing waits with
  | nil => exact settles_nil
  | cons e entries ih =>
    rw [List.forall_mem_cons] at hnone
    refine (ih hnone.2 hdots.tail).cons hnone.1 fun hhas => ?_
    obtain ⟨hallow, hafter, -⟩ := hdots [] e entries rfl hhas
    exact ⟨hallow, rfl, hafter⟩

/-- Names make a list, if three dots stand where they may and none is left without a type. -/
theorem settles_names (hnames : ∀ e ∈ entries, e.name? ≠ none) {waits : Bool}
    (hlast : ∀ e ∈ entries.getLast?, e.isLone = false) (hempty : entries = [] → waits = false)
    (hdots : DotsPlaced allowDots true waits entries) : Settles scope allowDots true waits entries := by
  induction entries generalizing waits with
  | nil =>
    obtain rfl := hempty rfl
    exact settles_nil
  | cons e entries ih =>
    rw [List.forall_mem_cons] at hnames
    have hmore (hwaits : entries = [] → e.isLone = false) : Settles scope allowDots true e.isLone entries := by
      refine ih hnames.2 (fun last h => hlast last ?_) hwaits hdots.tail
      cases entries with
      | nil => cases h
      | cons => simpa using h
    cases e with
    | lone name pos =>
      refine (hmore ?_).waiting name pos
      rintro rfl
      exact hlast _ rfl
    | named name dots type pos =>
      refine (hmore fun _ => rfl).cons rfl fun hhas => ?_
      obtain ⟨hallow, hafter, hplace⟩ := hdots [] _ entries rfl hhas
      exact ⟨hallow, (hplace rfl).1 rfl, hafter⟩
    | unnamed => exact absurd rfl hnames.1

theorem Entry.given?_eq_own (h : e.isLone = false) : e.given? = some (e.own scope) := by
  cases e with
  | lone => cases h
  | named | unnamed => rfl

/-- Three dots in front of a type give a slice. -/
theorem Entry.given?_of_hasDots (hdots : e.hasDots = true) {t : GoType} (h : e.given? = some t) :
    ∃ u ∈ e.type?, t = .slice u := by
  rw [Entry.given?, Option.map_eq_some_iff] at h
  obtain ⟨u, hu, rfl⟩ := h
  exact ⟨u, hu, by rw [if_pos hdots]⟩

/-- **What is settled stands for its entries**, and there is no conflict among them. -/
theorem standFor_of_resolve
    (h : resolve scope allowDots (entries.any Entry.isNamed) entries [] tokens = .ok list) :
    Entry.StandFor scope entries list.value ∧ ¬Entry.Conflict allowDots entries := by
  have hplaced := dotsPlaced_of_resolve h
  have hvariadic : list.value.variadic = true ↔ ∃ e ∈ entries.getLast?, e.hasDots = true := by
    rw [(variadic_resolve h).1, Option.any_eq_true]
    rfl
  cases hnamed : entries.any Entry.isNamed with
  | false =>
    rw [hnamed] at h
    have hnone : ∀ e ∈ entries, e.isNamed = false := by simpa using hnamed
    have hparams := params_of_resolve h hnone
    refine ⟨⟨by rw [hparams, List.length_map], .inl ⟨hnone, hparams⟩, hvariadic, fun e he hdots => ?_⟩, ?_⟩
    · have hlone : e.isLone = false := by cases e <;> first | rfl | cases hdots
      refine ⟨⟨"", e.own scope⟩, ?_, Entry.given?_of_hasDots hdots (Entry.given?_eq_own hlone)⟩
      rw [hparams, List.getLast?_map, Option.mem_def.1 he]
      rfl
    -- of the conflicts, two are about dots and three about names, of which there are none here
    · rintro (⟨hsplit, hdots, hafter⟩ | ⟨hsplit, -, hname, -⟩ | ⟨he, hdots, hallow⟩ | ⟨he, hname, -⟩ |
        ⟨he, hname, -⟩)
      · exact hafter (hplaced _ _ _ hsplit hdots).2.1
      · cases (hnone _ (by simp [hsplit])).symm.trans hname
      · obtain ⟨before, after, hsplit⟩ := List.append_of_mem he
        cases hallow.symm.trans (hplaced _ _ _ hsplit hdots).1
      · cases (hnone _ he).symm.trans hname
      · cases (hnone _ he).symm.trans hname
  | true =>
    rw [hnamed] at h hplaced
    obtain ⟨_, params, -, hparams, hshares⟩ := shares_of_resolve h
    obtain rfl : list.value.params = params := hparams
    refine ⟨⟨hshares.length_eq, .inr hshares, hvariadic, fun e he hdots => ?_⟩, ?_⟩
    · obtain ⟨p, hp, hgiven⟩ := hshares.getLast? he
      exact ⟨p, hp, Entry.given?_of_hasDots hdots hgiven⟩
    · rintro (⟨hsplit, hdots, hafter⟩ | ⟨hsplit, hlone, -, hdots⟩ | ⟨he, hdots, hallow⟩ |
        ⟨-, -, he', hname⟩ | ⟨-, -, hlast, hlone⟩)
      · exact hafter (hplaced _ _ _ hsplit hdots).2.1
      · rw [List.append_cons] at hsplit
        have hbefore := ((hplaced _ _ _ hsplit hdots).2.2 rfl).2 _ List.getLast?_concat
        cases hlone.symm.trans hbefore
      · obtain ⟨before, after, hsplit⟩ := List.append_of_mem he
        cases hallow.symm.trans (hplaced _ _ _ hsplit hdots).1
      · exact hshares.name_ne he' hname
      · obtain ⟨p, -, hgiven⟩ := hshares.getLast? hlast
        rename_i last
        have hlast : last.isLone = false := by cases last <;> first | rfl | cases hgiven
        cases hlone.symm.trans hlast

/-- **Entries without a conflict are settled.** -/
theorem exists_resolve (h : ¬Entry.Conflict allowDots entries) (tokens : List Token) :
    ∃ list references, resolve scope allowDots (entries.any Entry.isNamed) entries [] tokens =
      .ok ⟨list, references, tokens⟩ := by
  have hdots (named : Bool) (hnames : named = true → ∀ e ∈ entries, e.name? ≠ none) :
      DotsPlaced allowDots named false entries := by
    rintro before e after hsplit hhas
    refine ⟨?_, ?_, fun hnamed => ⟨fun _ => rfl, fun e' he' => ?_⟩⟩
    · exact Bool.of_not_eq_false fun hallow => h (.barred (by simp [hsplit]) hhas hallow)
    · by_contra hafter
      exact h (.early hsplit hhas hafter)
    · obtain ⟨before, rfl⟩ := List.getLast?_eq_some_iff.1 he'
      have hname : e.isNamed = true := by
        have hne := hnames hnamed e (by simp [hsplit])
        cases e with
        | lone => cases hhas
        | named => rfl
        | unnamed => exact absurd rfl hne
      rw [List.append_assoc, List.singleton_append] at hsplit
      exact Bool.eq_false_iff.2 fun hlone => h (.shared hsplit hlone hname hhas)
  have hsettles : Settles scope allowDots (entries.any Entry.isNamed) false entries := by
    cases hnamed : entries.any Entry.isNamed with
    | false => exact settles_types (by simpa using hnamed) (hdots false (by simp))
    | true =>
      obtain ⟨e, he, hname⟩ := List.any_eq_true.1 hnamed
      have hnames : ∀ e ∈ entries, e.name? ≠ none := fun e' he' hnone => h (.mixed he hname he' hnone)
      refine settles_names hnames (fun last hlast => ?_) (fun _ => rfl) (hdots true fun _ => hnames)
      exact Bool.eq_false_iff.2 fun hlone => h (.untyped he hname hlast hlone)
  obtain ⟨list, references, heq, -⟩ := hsettles.resolves [] (fun _ => rfl) [] tokens rfl trivial
  exact ⟨list, references, heq⟩

end

/-! ### Parameter lists -/

section

variable (scope : Scope) (n : Nat)

/-- A type name is a name alone, unless a dot stands behind it. -/
theorem rest_of_typeName {scope : Scope} {t : Token} {behind : List Token} {parsed : Parsed GoType}
    (ht : t.kind = .identifier) (h : scope.typeName (t :: behind) = .ok parsed) :
    parsed.rest = behind ↔ nextKind behind ≠ some .dot := by
  -- behind the name there may only be no bracket, and looking for one leaves all tokens
  have hplain {type : GoType} {tokens : List Token} {parsed : Parsed GoType}
      (h : (at? .leftBracket >>= fun b => if b then failAt t.pos .instantiation >>= fun _ : Unit =>
        pure type else pure type : Parser GoType) tokens = .ok parsed) : parsed.rest = tokens := by
    rw [bind_of_ok (at?_eq _ _)] at h
    split at h <;> cases h
    rfl
  have hname : name (t :: behind) = .ok ⟨t, [], behind⟩ := if_pos ht
  rw [Scope.typeName, bind_of_ok hname] at h
  by_cases hdot : nextKind behind = some .dot
  · obtain ⟨d, more, rfl, hd⟩ := exists_cons_of_nextKind hdot
    rw [bind_of_ok (accept_of_eq hd more), if_pos rfl] at h
    obtain ⟨second, last, hsecond, hlast, rfl⟩ := bind_eq_ok.1 h
    obtain ⟨-, hlength⟩ := (SameAt.expect _ _).2 second hsecond
    have hrest : last.rest = second.rest := by
      cases himport : scope.import? t.text with
      | none =>
        rw [himport] at hlast
        cases hlast
      | some package =>
        rw [himport] at hlast
        dsimp only at hlast
        rw [pure_bind] at hlast
        exact hplain hlast
    refine iff_of_false ?_ (not_not_intro hdot)
    dsimp only
    intro hall
    rw [← hrest, hall] at hlength
    simp only [List.length_cons] at hlength
    omega
  · rw [bind_of_ok (accept_of_ne hdot), if_neg Bool.false_ne_true] at h
    obtain ⟨first, last, hfirst, hlast, rfl⟩ := bind_eq_ok.1 h
    obtain ⟨references, htype⟩ := localType_eq t.text t.pos behind
    rw [htype] at hfirst
    cases hfirst
    have hrest := hplain hlast
    exact iff_of_true hrest hdot

/-- What is written begins a type, and a name is read alone unless a dot stands behind it. -/
theorem typeReader_typeWithin : TypeReader (typeWithin scope n) where
  begins {tokens parsed} h := by
    have hreads : EchoesAt (nextKind tokens) true (fun m : Nat => m) 0 0 (typeWithin scope n) (typeWithin scope) :=
      echoes_typeWithin n true 0 _
    obtain ⟨front, hsplit, hfront, -⟩ := hreads.reads rfl h
    obtain ⟨t, words, rfl⟩ := List.exists_cons_of_ne_nil (hfront rfl)
    refine ⟨t, words, hsplit, ?_⟩
    have hbegins (kind : Kind) (hkind : kind ∈ [Kind.comma, .rightParen, .dot, .ellipsis]) :
        t.kind ≠ kind := by
      rintro rfl
      rw [hsplit] at h
      cases n with
      | zero => cases h
      | succ n =>
        rw [List.cons_append, typeWithin, peek_cons] at h
        simp only [List.mem_cons, List.not_mem_nil, or_false] at hkind
        rcases hkind with hkind | hkind | hkind | hkind <;> rw [hkind] at h <;> cases h
    exact ⟨hbegins _ (by simp), hbegins _ (by simp), hbegins _ (by simp), hbegins _ (by simp)⟩
  lone {t words rest written references} ht h := by
    cases n with
    | zero => cases h
    | succ n =>
      rw [typeWithin, peek_cons, ht] at h
      rw [← rest_of_typeName ht h]
      simp

/-- **Parameter lists are settled by one rule.** What is read as a list is written as entries between
parentheses, and is what its entries stand for. Of the lists that are written so, those are refused that have
a conflict among their entries, and no others. -/
theorem parameters_settled (allowDots : Bool) (tokens : List Token) :
    (∀ parsed, parameters scope (typeWithin scope n) allowDots tokens = .ok parsed →
      ∃ paren inner entries, tokens = paren :: inner ∧ paren.kind = .leftParen ∧
        Entry.Lists (typeWithin scope n) entries inner parsed.rest ∧
        Entry.StandFor scope entries parsed.value) ∧
    ∀ paren inner entries rest, tokens = paren :: inner → paren.kind = .leftParen →
      Entry.Lists (typeWithin scope n) entries inner rest →
        (Entry.Conflict allowDots entries ↔
          ∃ e, parameters scope (typeWithin scope n) allowDots tokens = .error e) := by
  have hr := typeReader_typeWithin scope n
  -- behind the parenthesis, entries are read first and settled then
  have hinside {paren : Token} (inner : List Token) (hparen : paren.kind = .leftParen) :
      parameters scope (typeWithin scope n) allowDots (paren :: inner) =
        (bounded (Entry.parseAll (typeWithin scope n)) >>= fun entries =>
          resolve scope allowDots (entries.any Entry.isNamed) entries []) inner :=
    bind_of_ok (if_pos hparen)
  constructor
  · intro parsed h
    obtain ⟨paren, inner, rfl, hparen⟩ : ∃ paren inner, tokens = paren :: inner ∧
        paren.kind = .leftParen := by
      obtain ⟨first, -, hfirst, -⟩ := bind_eq_ok.1 h
      cases tokens with
      | nil => cases hfirst
      | cons t inner =>
        rw [expect] at hfirst
        split at hfirst
        next ht => exact ⟨t, inner, rfl, ht⟩
        next => cases hfirst
    rw [hinside inner hparen] at h
    obtain ⟨entries, list, hentries, hlist, rfl⟩ := bind_eq_ok.1 h
    refine ⟨paren, inner, entries.value, rfl, hparen, ?_, (standFor_of_resolve hlist).1⟩
    rw [rest_of_resolve hlist]
    exact lists_of_parseAll hr hentries
  · rintro paren inner entries rest rfl hparen hlists
    rw [hinside inner hparen]
    obtain ⟨references, hentries⟩ := parseAll_of_lists hr hlists (Nat.lt_succ_self _)
    have hbehind : (bounded (Entry.parseAll (typeWithin scope n)) : Parser (List Entry)) inner =
        .ok ⟨entries, references, rest⟩ := hentries
    constructor
    · intro hconflict
      cases hlist : resolve scope allowDots (entries.any Entry.isNamed) entries [] rest with
      | error e => exact ⟨e, bind_eq_error.2 (.inr ⟨_, hbehind, hlist⟩)⟩
      | ok list => exact absurd hconflict (standFor_of_resolve hlist).2
    · rintro ⟨e, herror⟩
      -- entries without a conflict would have been settled
      by_contra hconflict
      obtain ⟨list, more, hlist⟩ := exists_resolve hconflict rest
      rw [bind_eq_ok.2 ⟨_, _, hbehind, hlist, rfl⟩] at herror
      cases herror

/-- Two names share a type, and three dots make the last type a slice: `(a, b int, c ...string)`. -/
example : (match parameters ⟨⟨"m/p", "p"⟩, []⟩ (typeWithin ⟨⟨"m/p", "p"⟩, []⟩ 2) true
      ([(.leftParen, "("), (.identifier, "a"), (.comma, ","), (.identifier, "b"), (.identifier, "int"),
        (.comma, ","), (.identifier, "c"), (.ellipsis, "..."), (.identifier, "string"),
        (.rightParen, ")")].map fun word => ⟨word.1, word.2, .start⟩) with
    | .ok parsed => parsed.value.params.map fun p => (p.name, p.type.canonical)
    | .error _ => []) = [("a", "int"), ("b", "int"), ("c", "[]string")] := by
  decide +kernel

end

end Multicast.Syntax
