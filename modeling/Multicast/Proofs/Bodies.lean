import Multicast.Proofs.Exchange

/-!
# Bodies are irrelevant

Of a function, a variable or a constant only the name is read (`IsHead`). What stands behind it is skipped up
to the token that ends the declaration, so any other tokens may stand there whose delimiters are closed among
them (`IsBody`): the file says the same (`parseFile_exchange_body`). Every function, variable and constant that
is read has a head and a body (`exists_body_of_func`, `exists_body_of_values`).

In front of the declaration there may be types that cannot be described. Where such a type does not keep
its delimiters in step, the attempt to read it goes on into the bodies behind it, and they are no longer
irrelevant (`not_exchange_body_leak`).

## Two conditions

Delimiters of different kinds are counted together in a body, as the reader counts them, so a brace may
close a parenthesis (`IsBody`). Where this is the case no compiler would accept the file, but the readers
do, and a statement on what they do has to allow it.

What is asked of the types in front is asked of those that cannot be described, and of these only: the
delimiters in the tokens that are skipped for them keep in step with their brackets
(`Declaration.Matched`). A type that is read ends where its grammar says, and no body has a part in that.
-/

namespace Multicast.Syntax

open Source Multicast.Syntax.Parser

/-! ### Heads and bodies -/

/-- **A body**: what stands behind the names of a declaration, up to its end. Its delimiters are counted, of
whatever kind they are, and it ends before a semicolon outside of all of them. Behind names of variables or
constants it does not begin with a comma. -/
structure IsBody (ofValues : Bool) (body : List Token) : Prop where
  nested : nest 0 (body.map Token.kind) = some 0
  comma : ofValues = true → nextKind body ≠ some .comma

instance (ofValues : Bool) (body : List Token) : Decidable (IsBody ofValues body) :=
  decidable_of_iff (nest 0 (body.map Token.kind) = some 0 ∧ (ofValues = true → nextKind body ≠ some .comma))
    ⟨fun h => ⟨h.1, h.2⟩, fun h => ⟨h.nested, h.comma⟩⟩

/-- What stands between `func` and the name: nothing, or a receiver in its parentheses. -/
def IsReceiver (tokens : List Token) : Prop :=
  tokens = [] ∨ ∃ paren inner, tokens = paren :: inner ∧ paren.kind = .leftParen ∧
    skipParens 0 inner = .ok []

/-- Variables or constants with a semicolon behind each declaration, as they stand in a group in front of
others. -/
inductive ValueSpecs : List Token → Prop
  | nil : ValueSpecs []
  | semicolon {semicolon : Token} {more : List Token} (hsemicolon : semicolon.kind = .semicolon)
    (hmore : ValueSpecs more) : ValueSpecs (semicolon :: more)
  | spec {names body : List Token} {semicolon : Token} {more : List Token}
    (hnames : Written.Names (names.map Token.word)) (hbody : IsBody true body)
    (hsemicolon : semicolon.kind = .semicolon) (hmore : ValueSpecs more) :
    ValueSpecs (names ++ (body ++ semicolon :: more))

/-- **What stands in front of a body**: the keyword of a declaration and what it declares, a function or
method, or variables or constants. These may stand in a group, with others in front of them. -/
inductive IsHead : Bool → List Token → Prop
  | func {kw declared : Token} {receiver : List Token} (hkw : kw.kind = .keyword .funcKw)
    (hreceiver : IsReceiver receiver) (hdeclared : declared.kind = .identifier) :
    IsHead false (kw :: (receiver ++ [declared]))
  | single {kw : Token} {names : List Token} (hkw : kw.kind = .keyword .varKw ∨ kw.kind = .keyword .constKw)
    (hnames : Written.Names (names.map Token.word)) : IsHead true (kw :: names)
  | grouped {kw paren : Token} {specs names : List Token}
    (hkw : kw.kind = .keyword .varKw ∨ kw.kind = .keyword .constKw) (hparen : paren.kind = .leftParen)
    (hspecs : ValueSpecs specs) (hnames : Written.Names (names.map Token.word)) :
    IsHead true (kw :: paren :: (specs ++ names))

/-! ### What is read in front of a body

A head is read to its end without a look at the body, but for one token: whether another name follows the
last one shows in the token behind it, and no body of values begins with a comma. -/

section

variable {ofValues : Bool} {names body behind : List Token}

theorem IsBody.skipToEnd (hbody : IsBody ofValues body) (hends : EndsDeclaration (nextKind behind)) :
    skipToEnd (body ++ behind) = .ok ⟨(), [], behind⟩ :=
  skipToEnd_eq_ok_iff.2 ⟨behind, skipNested_eq_ok_iff.2 ⟨body, rfl, hbody.nested, hends⟩, rfl⟩

theorem IsBody.nextKind_ne (hbody : IsBody true body) (hends : EndsDeclaration (nextKind behind)) :
    nextKind (body ++ behind) ≠ some .comma := by
  cases body with
  | nil =>
    intro hcomma
    rcases hends _ hcomma with h | h <;> cases h
  | cons t body => exact hbody.comma rfl

/-- Names are read up to what is not a comma. -/
theorem names_eq (hnames : Written.Names (names.map Token.word)) (hbehind : nextKind behind ≠ some .comma) :
    Parser.names (names ++ behind) = .ok ⟨names.filter (·.kind = .identifier), [], behind⟩ := by
  suffices h : NameList (names ++ behind) (names.filter (·.kind = .identifier)) behind from
    names_eq_ok.2 ⟨_, _, rfl, h⟩
  generalize hwords : names.map Token.word = words at hnames
  induction hnames generalizing names with
  | last name =>
    obtain ⟨t, rfl, ht⟩ := List.map_eq_singleton_iff.1 hwords
    have hname : t.kind = .identifier := congrArg Word.kind ht
    simpa [hname] using NameList.last hname hbehind
  | more name comma h ih =>
    obtain ⟨t, ts, rfl, ht, hts⟩ := cons_of_map_word hwords
    obtain ⟨c, us, rfl, hc, hus⟩ := cons_of_map_word hts
    have hname : t.kind = .identifier := congrArg Word.kind ht
    have hcomma : c.kind = .comma := congrArg Word.kind hc
    simpa [hname, hcomma] using NameList.more hname hcomma (ih hus)

/-- What is declared by names. -/
def declaredBy (kind : ObjectKind) (names : List Token) : List Declaration :=
  ((names.filter (·.kind = .identifier)).filter (·.text ≠ "_")).map fun t => ⟨⟨t.text, kind⟩, t.pos⟩

/-- Of variables or constants the names are read, and the body is skipped. -/
theorem valueHead_eq (kind : ObjectKind) (hnames : Written.Names (names.map Token.word))
    (hbody : IsBody true body) (hends : EndsDeclaration (nextKind behind)) :
    valueHead kind (names ++ (body ++ behind)) = .ok ⟨declaredBy kind names, [], behind⟩ :=
  (bind_of_ok (names_eq hnames (hbody.nextKind_ne hends))).trans (bind_of_ok (hbody.skipToEnd hends))

/-- A receiver is read if there is one. -/
theorem receiver_eq {tokens : List Token} (h : IsReceiver tokens) {t : Token} (ht : t.kind ≠ .leftParen) :
    ∃ isMethod, ∀ rest, receiver (tokens ++ t :: rest) = .ok ⟨isMethod, [], t :: rest⟩ := by
  obtain rfl | ⟨paren, inner, rfl, hparen, hskip⟩ := h
  · exact ⟨false, fun rest => if_neg ht⟩
  · obtain ⟨front, hfront, hagain⟩ := skipParens_again hskip
    rw [List.append_nil] at hfront
    subst hfront
    refine ⟨true, fun rest => ?_⟩
    rw [List.cons_append, receiver, if_pos hparen, hagain]
    rfl

/-- The first token of names is one. -/
theorem cons_of_names (hnames : Written.Names (names.map Token.word)) :
    ∃ t more, names = t :: more ∧ t.kind = .identifier := by
  generalize hwords : names.map Token.word = words at hnames
  cases hnames with
  | last name | more name =>
    obtain ⟨t, more, rfl, ht, -⟩ := cons_of_map_word hwords
    exact ⟨t, more, rfl, congrArg Word.kind ht⟩

/-- In a group a spec of variables or constants is read, and a semicolon behind it if there is one. -/
theorem groupSpecs_value_eq (kind : ObjectKind) (hnames : Written.Names (names.map Token.word))
    (hbody : IsBody true body) (hends : EndsDeclaration (nextKind behind)) :
    bounded (groupRest (valueSpec kind)) (names ++ (body ++ behind)) =
      (accept .semicolon >>= fun _ => bounded (groupRest (valueSpec kind)) >>= fun others =>
        pure (declaredBy kind names :: others)) behind := by
  have hhead := valueHead_eq kind hnames hbody hends
  obtain ⟨t, more, rfl, ht⟩ := cons_of_names hnames
  rw [List.cons_append] at hhead ⊢
  rw [groupSpecs_spec (same_valueSpec kind) (by simp [ht]) (by simp [ht]), valueSpec_eq]
  simp only [bind_assoc, pure_bind]
  exact bind_of_ok hhead

/-- Behind their keyword variables or constants are read in one round. -/
theorem round_values_eq (scope : Scope) {kw : Token}
    (hkw : kw.kind = .keyword .varKw ∨ kw.kind = .keyword .constKw) :
    ∃ kind, ∀ tokens, round scope .file (kw :: tokens) = values kind tokens := by
  have hround (kind : Kind) (h : kw.kind = kind) (tokens : List Token) :
      round scope .file (kw :: tokens) = roundFrom scope .file kind (kw :: tokens) :=
    round_of_nextKind _ (nextKind_of_eq h _)
  rcases hkw with hkw | hkw
  · exact ⟨.var, fun tokens => (hround _ hkw tokens).trans skip_cons⟩
  · exact ⟨.const, fun tokens => (hround _ hkw tokens).trans skip_cons⟩

/-- A function is read in one round, whatever its body is. -/
theorem round_func_eq (scope : Scope) {kw declared : Token} {receiver : List Token}
    (hkw : kw.kind = .keyword .funcKw) (hreceiver : IsReceiver receiver) (hdeclared : declared.kind = .identifier)
    (hends : EndsDeclaration (nextKind behind)) : ∃ isMethod, ∀ body, IsBody false body →
      round scope .file (kw :: (receiver ++ [declared]) ++ (body ++ behind)) =
        .ok ⟨(if isMethod || declared.text = "_" || declared.text = "init" then []
          else [⟨⟨declared.text, .func⟩, declared.pos⟩], .skipped), [], behind⟩ := by
  obtain ⟨isMethod, hread⟩ := receiver_eq hreceiver (by simp [hdeclared] : declared.kind ≠ .leftParen)
  refine ⟨isMethod, fun body hbody => ?_⟩
  have hname : name (declared :: (body ++ behind)) = .ok ⟨declared, [], body ++ behind⟩ := if_pos hdeclared
  have hhead : funcHead (receiver ++ declared :: (body ++ behind)) =
      .ok ⟨if isMethod || declared.text = "_" || declared.text = "init" then []
        else [⟨⟨declared.text, .func⟩, declared.pos⟩], [], behind⟩ := by
    rw [funcHead, bind_of_ok (hread _), bind_of_ok hname, bind_of_ok (hbody.skipToEnd hends)]
    rfl
  rw [List.cons_append, List.append_assoc, List.singleton_append,
    round_of_nextKind _ (nextKind_of_eq hkw _), roundFrom, skip_cons, bind_of_ok hhead]
  rfl

end

/-! ### Every declaration has a head and a body -/

section

variable {scope : Scope} {kind : ObjectKind} {tokens : List Token}

theorem exists_names {parsed : Parsed (List Token)} (h : Parser.names tokens = .ok parsed) :
    ∃ front, tokens = front ++ parsed.rest ∧ Written.Names (front.map Token.word) ∧
      parsed.value = front.filter (·.kind = .identifier) ∧ nextKind parsed.rest ≠ some .comma := by
  have hword {t : Token} {kind : Kind} (ht : t.kind = kind) : t.word = ⟨kind, t.text⟩ := by
    rw [Token.word, ht]
  obtain ⟨ts, rest, rfl, hnames⟩ := names_eq_ok.1 h
  clear h
  dsimp only
  induction hnames with
  | @last t rest ht hcomma =>
    refine ⟨[t], rfl, ?_, by simp [ht], hcomma⟩
    rw [List.map_singleton, hword ht]
    exact .last _
  | @more t comma tokens ts rest ht hcomma _ ih =>
    obtain ⟨front, rfl, hfront, hvalue, hnext⟩ := ih
    refine ⟨t :: comma :: front, rfl, ?_, by simp [hvalue, ht, hcomma], hnext⟩
    rw [List.map_cons, List.map_cons, hword ht, hword hcomma]
    exact .more _ _ hfront

theorem exists_body_of_valueHead {parsed : Parsed (List Declaration)} (h : valueHead kind tokens = .ok parsed) :
    ∃ names body, tokens = names ++ (body ++ parsed.rest) ∧ Written.Names (names.map Token.word) ∧
      IsBody true body ∧ EndsDeclaration (nextKind parsed.rest) ∧ parsed.value = declaredBy kind names := by
  obtain ⟨declared, _, hnames, hbehind, rfl⟩ := bind_eq_ok.1 h
  obtain ⟨_, hskip, rfl⟩ := bind_pure_eq_ok.1 hbehind
  obtain ⟨front, rfl, hfront, hvalue, hcomma⟩ := exists_names hnames
  obtain ⟨rest, hnested, rfl⟩ := skipToEnd_eq_ok_iff.1 hskip
  obtain ⟨body, hsplit, hbody, hends⟩ := skipNested_eq_ok_iff.1 hnested
  refine ⟨front, body, by rw [hsplit], hfront, ⟨hbody, fun _ hnext => hcomma ?_⟩, hends, by rw [hvalue]; rfl⟩
  rw [hsplit]
  cases body with
  | nil => cases hnext
  | cons t body => exact hnext

theorem exists_receiver {parsed : Parsed Bool} (h : receiver tokens = .ok parsed) :
    ∃ front, tokens = front ++ parsed.rest ∧ IsReceiver front := by
  rcases tokens with _ | ⟨t, tokens⟩
  · cases h
    exact ⟨[], rfl, .inl rfl⟩
  rw [receiver] at h
  split at h
  next ht =>
    cases hskip : skipParens 0 tokens with
    | error e => rw [hskip] at h; cases h
    | ok rest =>
      rw [hskip] at h
      cases h
      obtain ⟨inner, rfl, hagain⟩ := skipParens_again hskip
      exact ⟨t :: inner, rfl, .inr ⟨t, inner, rfl, ht, by simpa using hagain []⟩⟩
  next ht =>
    cases h
    exact ⟨[], rfl, .inl rfl⟩

/-- **A function has a head and a body.** -/
theorem exists_body_of_func {kw : Token} {first : Parsed (List Declaration × Stage)}
    (hkw : kw.kind = .keyword .funcKw) (h : round scope .file (kw :: tokens) = .ok first) :
    ∃ head body, kw :: tokens = head ++ (body ++ first.rest) ∧ IsHead false head ∧ IsBody false body ∧
      EndsDeclaration (nextKind first.rest) := by
  rw [round_of_nextKind _ (nextKind_of_eq hkw _), roundFrom, skip_cons] at h
  obtain ⟨_, hhead, rfl⟩ := bind_pure_eq_ok.1 h
  obtain ⟨method, _, hreceiver, hbehind, rfl⟩ := bind_eq_ok.1 hhead
  obtain ⟨declared, _, hname, hend, rfl⟩ := bind_eq_ok.1 hbehind
  obtain ⟨_, hskip, rfl⟩ := bind_pure_eq_ok.1 hend
  obtain ⟨front, rfl, hfront⟩ := exists_receiver hreceiver
  obtain ⟨rest, hnested, rfl⟩ := skipToEnd_eq_ok_iff.1 hskip
  obtain ⟨body, hsplit, hbody, hends⟩ := skipNested_eq_ok_iff.1 hnested
  generalize method.rest = behind at hname
  cases behind with
  | nil => cases hname
  | cons t behind =>
    rw [name, expect] at hname
    split at hname
    next ht =>
      cases hname
      have hbodied : IsBody false body := ⟨hbody, fun hvalues => absurd hvalues Bool.false_ne_true⟩
      exact ⟨kw :: (front ++ [t]), body, by simp [← hsplit], .func hkw hfront ht, hbodied, hends⟩
    next => cases hname

/-- Where a delimiter is closed no spec of a group begins. -/
theorem groupRest_of_ends {n : Nat} {parsed : Parsed (List (List Declaration))}
    (hends : EndsDeclaration (nextKind tokens)) (hsemicolon : nextKind tokens ≠ some .semicolon)
    (h : groupRest (valueSpec kind) n tokens = .ok parsed) : parsed.value = [] := by
  cases n with
  | zero => cases h
  | succ n =>
    cases tokens with
    | nil => cases h
    | cons t tokens =>
      have ht : t.kind ≠ .semicolon := by simpa [nextKind] using hsemicolon
      by_cases hparen : t.kind = .rightParen
      · rw [groupRest_rightParen _ hparen] at h
        cases h
        rfl
      · rw [groupRest_spec _ ht hparen, valueSpec_eq] at h
        obtain ⟨_, _, hspec, -, rfl⟩ := bind_eq_ok.1 h
        obtain ⟨_, _, hhead, -, rfl⟩ := bind_eq_ok.1 hspec
        have hclosing := (hends _ rfl).resolve_left ht
        rw [identifier_of_valueHead hhead] at hclosing
        cases hclosing

/-- Every spec of a group of variables or constants has a head and a body. -/
theorem exists_body_of_groupRest {n : Nat} {parsed : Parsed (List (List Declaration))} {i : Nat}
    {ds : List Declaration} (h : groupRest (valueSpec kind) n tokens = .ok parsed)
    (hi : parsed.value[i]? = some ds) : ∃ specs names body behind, tokens = specs ++ (names ++ (body ++ behind)) ∧
      ValueSpecs specs ∧ Written.Names (names.map Token.word) ∧ IsBody true body ∧
        EndsDeclaration (nextKind behind) ∧ ds = declaredBy kind names := by
  induction n generalizing tokens parsed i with
  | zero => cases h
  | succ n ih =>
    -- semicolons are skipped without using the budget, so there is an induction on the tokens inside
    induction tokens generalizing parsed with
    | nil => cases h
    | cons t tokens ihTokens =>
      by_cases ht : t.kind = .semicolon
      · rw [groupRest_semicolon _ ht] at h
        obtain ⟨specs, names, body, behind, rfl, hspecs, hspec⟩ := ihTokens h hi
        exact ⟨t :: specs, names, body, behind, rfl, .semicolon ht hspecs, hspec⟩
      by_cases hparen : t.kind = .rightParen
      · rw [groupRest_rightParen _ hparen] at h
        cases h
        cases hi
      rw [groupRest_spec _ ht hparen] at h
      obtain ⟨_, _, hspec, hbehind, rfl⟩ := bind_eq_ok.1 h
      obtain ⟨others, hothers, rfl⟩ := bind_pure_eq_ok.1 hbehind
      rw [valueSpec_eq] at hspec
      obtain ⟨first, _, hfirst, hend, rfl⟩ := bind_eq_ok.1 hspec
      obtain ⟨ended, haccept, rfl⟩ := bind_pure_eq_ok.1 hend
      obtain ⟨names, body, hsplit, hnames, hbody, hends, hvalue⟩ := exists_body_of_valueHead hfirst
      rw [hsplit]
      cases i with
      | zero =>
        cases hi
        exact ⟨[], names, body, first.rest, rfl, .nil, hnames, hbody, hends, hvalue⟩
      | succ i =>
        replace hi : others.value[i]? = some ds := by simpa using hi
        -- without a semicolon behind the first spec the group ends, and there is no other spec
        by_cases hnext : nextKind first.rest = some .semicolon
        · generalize first.rest = rest at hnext haccept
          obtain ⟨u, rest, rfl, hu⟩ := exists_cons_of_nextKind hnext
          rw [accept_of_eq hu] at haccept
          cases haccept
          obtain ⟨specs, names', body', behind, rfl, hspecs, hspec⟩ := ih hothers hi
          refine ⟨names ++ (body ++ u :: specs), names', body', behind, by simp, ?_, hspec⟩
          exact .spec hnames hbody hu hspecs
        · rw [accept_of_ne hnext] at haccept
          cases haccept
          rw [groupRest_of_ends hends hnext hothers] at hi
          cases hi

/-- **Variables and constants have a head and a body**, each spec of a group too. -/
theorem exists_body_of_values {kw : Token} {first : Parsed (List Declaration × Stage)}
    (hkw : kw.kind = .keyword .varKw ∨ kw.kind = .keyword .constKw)
    (h : round scope .file (kw :: tokens) = .ok first) : ∃ specs : List (List Declaration),
      first.value.1 = specs.flatten ∧ ∀ ds ∈ specs, ∃ head body behind, kw :: tokens = head ++ (body ++ behind) ∧
        IsHead true head ∧ IsBody true body ∧ EndsDeclaration (nextKind behind) ∧
          ∀ d ∈ ds, d.object.name ∈ head.map Token.text := by
  have hdeclared {kind : ObjectKind} {names : List Token} :
      ∀ d ∈ declaredBy kind names, d.object.name ∈ names.map Token.text := by
    intro d hd
    obtain ⟨t, ht, rfl⟩ := List.mem_map.1 hd
    exact List.mem_map_of_mem (List.mem_of_mem_filter (List.mem_of_mem_filter ht))
  obtain ⟨kind, hround⟩ := round_values_eq scope hkw
  have hvalues : values kind tokens = .ok first := (hround tokens).symm.trans h
  by_cases hopens : nextKind tokens = some .leftParen
  · obtain ⟨paren, inner, rfl, hparen⟩ := exists_cons_of_nextKind hopens
    rw [values, bind_of_ok (accept_of_eq hparen inner)] at hvalues
    obtain ⟨specs, hspecs, rfl⟩ := bind_pure_eq_ok.1 hvalues
    refine ⟨specs.value, rfl, fun ds hds => ?_⟩
    -- in a group, the head is all that stands in front of the body, the specs before it too
    obtain ⟨i, hi⟩ := List.getElem?_of_mem hds
    obtain ⟨others, names, body, behind, rfl, hothers, hnames, hbody, hends, rfl⟩ :=
      exists_body_of_groupRest hspecs hi
    refine ⟨kw :: paren :: (others ++ names), body, behind, by simp, .grouped hkw hparen hothers hnames, hbody,
      hends, fun d hd => ?_⟩
    rw [List.map_cons, List.map_cons, List.map_append]
    exact .tail _ (.tail _ (List.mem_append_right _ (hdeclared d hd)))
  · rw [values, bind_of_ok (accept_of_ne hopens)] at hvalues
    obtain ⟨ds, hhead, rfl⟩ := bind_pure_eq_ok.1 hvalues
    obtain ⟨names, body, hsplit, hnames, hbody, hends, hvalue⟩ := exists_body_of_valueHead hhead
    refine ⟨[ds.value], by simp, fun _ hds => ?_⟩
    obtain rfl := List.mem_singleton.1 hds
    refine ⟨kw :: names, body, _, by rw [hsplit]; rfl, .single hkw hnames, hbody, hends, fun d hd => ?_⟩
    rw [hvalue] at hd
    exact List.mem_cons_of_mem _ (hdeclared d hd)

end

/-! ### Exchanging bodies

In front of either body the reader makes the same round. Behind it, it stands in front of the same tokens
at the same stage; so the two files are alike from there, and `contents_exchange` is all that is left to
apply. -/

section

variable {ofValues : Bool} {body body' behind : List Token} (hends : EndsDeclaration (nextKind behind))

include hends

/-- **In a group of variables or constants** any body does. -/
theorem groupSpecs_exchange (kind : ObjectKind) {specs names : List Token} (hspecs : ValueSpecs specs)
    (hnames : Written.Names (names.map Token.word)) (hbody : IsBody true body)
    (hbody' : IsBody true body') :
    bounded (groupRest (valueSpec kind)) (specs ++ (names ++ (body ++ behind))) =
      bounded (groupRest (valueSpec kind)) (specs ++ (names ++ (body' ++ behind))) := by
  induction hspecs with
  | nil =>
    rw [List.nil_append, List.nil_append, groupSpecs_value_eq kind hnames hbody hends,
      groupSpecs_value_eq kind hnames hbody' hends]
  | semicolon hsemicolon _ ih =>
    rw [List.cons_append, List.cons_append, groupSpecs_semicolon _ hsemicolon (same_valueSpec kind),
      groupSpecs_semicolon _ hsemicolon (same_valueSpec kind), ih]
  | @spec declared inside semicolon more hdeclared hinside hsemicolon _ ih =>
    have hrest (rest : List Token) : EndsDeclaration (nextKind (semicolon :: rest)) := by
      rintro kind ⟨⟩
      exact .inl hsemicolon
    simp only [List.append_assoc, List.cons_append]
    rw [groupSpecs_value_eq kind hdeclared hinside (hrest _),
      groupSpecs_value_eq kind hdeclared hinside (hrest _), bind_of_ok (accept_of_eq hsemicolon _), bind_of_ok (accept_of_eq hsemicolon _)]
    exact bind_congr_first ih

/-- **In front of any body the same is read**, and in one round. -/
theorem round_exchange {scope : Scope} {head : List Token} (hhead : IsHead ofValues head)
    (hbody : IsBody ofValues body) (hbody' : IsBody ofValues body') :
    round scope .file (head ++ (body ++ behind)) = round scope .file (head ++ (body' ++ behind)) := by
  cases hhead with
  | func hkw hreceiver hdeclared =>
    obtain ⟨isMethod, hround⟩ := round_func_eq scope hkw hreceiver hdeclared hends
    rw [hround body hbody, hround body' hbody']
  | @single kw names hkw hnames =>
    obtain ⟨kind, hround⟩ := round_values_eq scope hkw
    obtain ⟨t, more, rfl, ht⟩ := cons_of_names hnames
    have hopen (rest : List Token) : nextKind (t :: (more ++ rest)) ≠ some .leftParen := by
      simp [nextKind, ht]
    refine ((hround _).trans ?_).trans (hround _).symm
    change values kind (t :: (more ++ (body ++ behind))) = values kind (t :: (more ++ (body' ++ behind)))
    rw [values, bind_of_ok (accept_of_ne (hopen _)), bind_of_ok (accept_of_ne (hopen _))]
    refine bind_congr_first ?_
    rw [← List.cons_append, ← List.cons_append, valueHead_eq kind hnames hbody hends,
      valueHead_eq kind hnames hbody' hends]
  | @grouped kw paren specs names hkw hparen hspecs hnames =>
    obtain ⟨kind, hround⟩ := round_values_eq scope hkw
    refine ((hround _).trans ?_).trans (hround _).symm
    change values kind (paren :: (specs ++ names ++ (body ++ behind))) =
      values kind (paren :: (specs ++ names ++ (body' ++ behind)))
    rw [values, bind_of_ok (accept_of_eq hparen _), bind_of_ok (accept_of_eq hparen _)]
    refine bind_congr_first ?_
    rw [List.append_assoc, List.append_assoc]
    exact groupSpecs_exchange hends kind hspecs hnames hbody hbody'

end

/-- **Bodies are irrelevant in a text.** Wherever a function, a variable or a constant is declared, its body can
be exchanged for any other one, and the text says the same. -/
theorem parseFile_exchange_body {file text path : String} {ts : Tokens} {f : File} {ds : List Declaration}
    {ofValues : Bool} {head body behind : List Token} (hts : tokenize text = .ok ts)
    (h : parseFile file text path = .ok f) (hplace : IsPlace path ts.list false ds (head ++ (body ++ behind)))
    (hmatched : ∀ d ∈ ds, d.Matched ts.list) (hhead : IsHead ofValues head) (hbody : IsBody ofValues body)
    (hends : EndsDeclaration (nextKind behind)) :
    ∃ before, ts.list = before ++ (head ++ (body ++ behind)) ∧ ∀ body', IsBody ofValues body' →
      contents path (before ++ (head ++ (body' ++ behind))) = contents path ts.list ∧
      ∀ file' text' ts', tokenize text' = .ok ts' →
        SameWords ts'.list (before ++ (head ++ (body' ++ behind))) →
          ∃ f', parseFile file' text' path = .ok f' ∧ f.SaysSame f' := by
  obtain ⟨kw, more, rfl, hkw⟩ : ∃ kw more, head = kw :: more ∧ kw.kind ≠ .keyword .importKw := by
    cases hhead with
    | func hkw => exact ⟨_, _, rfl, by simp [hkw]⟩
    | single hkw | grouped hkw => exact ⟨_, _, rfl, by rcases hkw with hkw | hkw <;> simp [hkw]⟩
  have hexchange : ∀ part', (∃ body', IsBody ofValues body' ∧ part' = kw :: more ++ (body' ++ behind)) →
      ∃ before, ts.list = before ++ (kw :: more ++ (body ++ behind)) ∧
        contents path (before ++ part') = contents path ts.list := by
    rintro _ ⟨body', hbody', rfl⟩
    refine contents_exchange hplace hmatched (by simp) (by simpa [nextKind] using hkw) fun _ _ => ?_
    rw [List.cons_append, List.cons_append, reading_cons, reading_cons]
    exact bind_congr_first (round_exchange hends hhead hbody' hbody)
  obtain ⟨before, hsplit, hall⟩ := parseFile_exchange_all hts h ⟨body, hbody, rfl⟩ hexchange
  exact ⟨before, hsplit, fun body' hbody' => hall _ ⟨body', hbody', rfl⟩⟩

/-- A type that cannot be described, and two variables. -/
def fillText : String :=
  "package shelf\n\ntype Box[T any] struct\x7b\x7d\n\nvar cups, mugs = fill(2)\n"

/-- The initialiser of the variables can be exchanged. -/
theorem parseFile_exchange_body_fill : ∃ ts f ds, ∃ head body behind : List Token, tokenize fillText = .ok ts ∧
    parseFile "shelf.go" fillText "example.com/shelf" = .ok f ∧
    IsPlace "example.com/shelf" ts.list false ds (head ++ (body ++ behind)) ∧
    (∀ d ∈ ds, d.Matched ts.list) ∧ IsHead true head ∧ IsBody true body ∧
    EndsDeclaration (nextKind behind) ∧ ds.map (·.object.name) = ["Box"] ∧
    ∃ before, ts.list = before ++ (head ++ (body ++ behind)) ∧ ∀ body', IsBody true body' →
      contents "example.com/shelf" (before ++ (head ++ (body' ++ behind))) =
        contents "example.com/shelf" ts.list ∧
      ∀ file' text' ts', tokenize text' = .ok ts' →
        SameWords ts'.list (before ++ (head ++ (body' ++ behind))) →
          ∃ f', parseFile file' text' "example.com/shelf" = .ok f' ∧ f.SaysSame f' := by
  obtain ⟨ts, f, ds, rest, hts, hfile, hplace, hcheck⟩ : ∃ ts f ds rest,
      tokenize fillText = .ok ts ∧ parseFile "shelf.go" fillText "example.com/shelf" = .ok f ∧
      IsPlace "example.com/shelf" ts.list false ds rest ∧
      (rest.head?.any fun kw => (∀ d ∈ ds, d.Matched ts.list) ∧ ds.map (·.object.name) = ["Box"] ∧
        rest = kw :: (rest.drop 1).take 3 ++ ((rest.drop 4).take 5 ++ rest.drop 9) ∧
        kw.kind = .keyword .varKw ∧ ((rest.drop 1).take 3).map Token.word =
          [⟨.identifier, "cups"⟩, ⟨.comma, ","⟩, ⟨.identifier, "mugs"⟩] ∧
        IsBody true ((rest.drop 4).take 5) ∧ nextKind (rest.drop 9) = some .semicolon) = true :=
    exists_place_of_any (n := 2) String.toList_ofList (by decide +kernel)
  obtain ⟨kw, -, hcheck⟩ := (Option.any_eq_true _ _).1 hcheck
  obtain ⟨hmatched, hobjects, hsplit, hkw, hnames, hbody, hnext⟩ := of_decide_eq_true hcheck
  rw [hsplit] at hplace
  have hhead : IsHead true (kw :: (rest.drop 1).take 3) :=
    .single (.inl hkw) (by rw [hnames]; exact .more "cups" "," (.last "mugs"))
  have hends : EndsDeclaration (nextKind (rest.drop 9)) := by
    rw [hnext]
    rintro kind ⟨⟩
    exact .inl rfl
  exact ⟨ts, _, _, _, _, _, hts, hfile, hplace, hmatched, hhead, hbody, hends, hobjects,
    parseFile_exchange_body hts hfile hplace hmatched hhead hbody hends⟩

/-- A type that cannot be described, and a variable. The attempt to read the type goes on into the body of the
variable, where the length of the array ends. -/
def leakText : String :=
  "package leak\n\ntype X [\x7d ; var Y = U[\x7b]]T[int]\n"

/-- The same text with another body of the variable. -/
def leakOther : String :=
  "package leak\n\ntype X [\x7d ; var Y = 1\n"

/-- Where the delimiters of a type do not keep in step, a body behind it is not irrelevant. -/
theorem not_exchange_body_leak : ∃ ts f ds, ∃ before head body behind body' : List Token,
    tokenize leakText = .ok ts ∧ parseFile "leak.go" leakText "example.com/leak" = .ok f ∧
    f.declarations.map (fun d => d.object.name) = ["X", "Y"] ∧
    IsPlace "example.com/leak" ts.list false ds (head ++ (body ++ behind)) ∧
    IsHead true head ∧ IsBody true body ∧ EndsDeclaration (nextKind behind) ∧ IsBody true body' ∧
    ts.list = before ++ (head ++ (body ++ behind)) ∧
    (∃ e, contents "example.com/leak" (before ++ (head ++ (body' ++ behind))) = .error e) ∧
    (∃ ts', tokenize leakOther = .ok ts' ∧ SameWords ts'.list (before ++ (head ++ (body' ++ behind)))) ∧
    ∃ e, parseFile "leak.go" leakOther "example.com/leak" = .error e := by
  have hother : tokenize leakOther = _ := tokenize_ofList _
  obtain ⟨ts, f, ds, rest, hts, hfile, hplace, hcheck⟩ : ∃ ts f ds rest,
      tokenize leakText = .ok ts ∧ parseFile "leak.go" leakText "example.com/leak" = .ok f ∧
      IsPlace "example.com/leak" ts.list false ds rest ∧
      (rest.head?.any fun kw => (tokenize leakOther).toOption.any fun ts' =>
        f.declarations.map (fun d => d.object.name) = ["X", "Y"] ∧
        rest = kw :: (rest.drop 1).take 1 ++ ((rest.drop 2).take 10 ++ rest.drop 12) ∧
        kw.kind = .keyword .varKw ∧ ((rest.drop 1).take 1).map Token.word = [⟨.identifier, "Y"⟩] ∧
        IsBody true ((rest.drop 2).take 10) ∧ nextKind (rest.drop 12) = some .semicolon ∧
        IsBody true ((ts'.list.drop 10).take 2) ∧ ts.list = ts.list.take 8 ++ rest ∧
        (contents "example.com/leak" (ts.list.take 8 ++ (kw :: (rest.drop 1).take 1 ++
          ((ts'.list.drop 10).take 2 ++ rest.drop 12)))).toOption.isNone ∧
        SameWords ts'.list (ts.list.take 8 ++ (kw :: (rest.drop 1).take 1 ++
          ((ts'.list.drop 10).take 2 ++ rest.drop 12)))) = true := by
    rw [hother]
    exact exists_place_of_any (n := 2) String.toList_ofList (by decide +kernel)
  obtain ⟨kw, -, hcheck⟩ := (Option.any_eq_true _ _).1 hcheck
  obtain ⟨ts', hts', hcheck⟩ := exists_ok_of_any hcheck
  obtain ⟨hobjects, hsplit, hkw, hnames, hbody, hnext, hbody', hall, hfails, hsame⟩ :=
    of_decide_eq_true hcheck
  have hrefused := exists_error_of_isNone hfails
  rw [hsplit] at hplace
  have hhead : IsHead true (kw :: (rest.drop 1).take 1) :=
    .single (.inl hkw) (by rw [hnames]; exact .last "Y")
  have hends : EndsDeclaration (nextKind (rest.drop 12)) := by
    rw [hnext]
    rintro kind ⟨⟩
    exact .inl rfl
  exact ⟨ts, _, _, ts.list.take 8, _, _, _, (ts'.list.drop 10).take 2, hts, hfile, hobjects, hplace, hhead,
    hbody, hends, hbody', hsplit ▸ hall, hrefused, ⟨ts', hts', hsame⟩,
    parseFile_error_of_contents hts' hsame hrefused⟩

end Multicast.Syntax
