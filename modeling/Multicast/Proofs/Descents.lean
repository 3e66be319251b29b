import Multicast.Proofs.FileYields

/-!
# Every descent is behind a token

The readers of types call each other: a type may hold a signature, a signature types, and so on.
They run on budgets, and this file shows that the budgets do not matter. Without them, one descent
is a step that is given the readers to descend into (`Readers.next`), and the readers of a scope are
a fixed point of it (`Scope.next_readers`). There is only one, since the step is *guarded*: what it
reads from some tokens depends on the readers inside at the tokens that are left when one or more of
them have been read, and nowhere else (`Readers.same_next`).

Loops are treated alike. A round of a loop is given the reader of the rounds to come, and this one
is asked only behind a token that the round has read (`Loop`).

Both are statements on two runs: `SameAt n us p q` says that two parsers do the same on some tokens,
and besides that what they leave is a part of these tokens without the first `n`, at least.

## Guarded steps have one fixed point

Let a step be given two readers that do the same on all tokens that are left behind one or more of some
tokens. If the step then does the same on these tokens, it is guarded. Two readers that are fixed points
of a guarded step are equal: by induction on the number of tokens, since the step asks them about fewer
tokens only. And a reader on a budget is such a fixed point if the budget is told from the number of
tokens (`bounded_eq_step`), for then a larger budget would not have been used.

This is why the budgets can be forgotten. They are there to make the definitions structural, and no reader
ever comes to their end, however deep the types are nested.
-/

namespace Multicast.Syntax

open Source Multicast.Syntax.Parser

namespace Parser

variable {α β γ : Type} {n : Nat} {us : List Token} {p q : Parser α} {f g : α → Parser β}

/-! ### Two runs on the same tokens -/

/-- **Two parsers do the same on some tokens**, and leave what is behind the first `n` of them, or
less. -/
def SameAt (n : Nat) (us : List Token) (p q : Parser α) : Prop :=
  p us = q us ∧ ∀ parsed, p us = .ok parsed →
    parsed.rest <:+ us ∧ parsed.rest.length + n ≤ us.length

/-- Two parsers do the same on whatever is left of some tokens. -/
def SameOn (n : Nat) (us : List Token) (p q : Parser α) : Prop :=
  ∀ vs, vs <:+ us → SameAt n vs p q

/-- Two parsers do the same on what is left of some tokens when at least one of them was read. -/
def SameBehind (n : Nat) (us : List Token) (p q : Parser α) : Prop :=
  ∀ vs, vs <:+ us → vs.length < us.length → SameAt n vs p q

/-- What holds on all that is left of some tokens holds on what is left of fewer. -/
theorem SameOn.suffix {vs : List Token} (h : SameOn n us p q) (hvs : vs <:+ us) : SameOn n vs p q :=
  fun ws hws => h ws (hws.trans hvs)

theorem SameOn.behind (h : SameOn n us p q) : SameBehind n us p q :=
  fun vs hvs _ => h vs hvs

theorem SameBehind.suffix {vs : List Token} (h : SameBehind n us p q) (hvs : vs <:+ us) :
    SameBehind n vs p q :=
  fun ws hws hlt => h ws (hws.trans hvs) (hlt.trans_le hvs.length_le)

/-- Behind a token, nothing is out of reach. -/
theorem SameBehind.on {vs : List Token} (h : SameBehind n us p q) (hvs : vs <:+ us)
    (hlt : vs.length < us.length) : SameOn n vs p q :=
  fun ws hws => h ws (hws.trans hvs) (hws.length_le.trans_lt hlt)

namespace SameAt

/-- To leave what is behind more tokens is to leave what is behind fewer. -/
theorem mono {m : Nat} (h : SameAt n us p q) (hm : m ≤ n) : SameAt m us p q :=
  ⟨h.1, fun parsed hok => ⟨(h.2 parsed hok).1, by have := (h.2 parsed hok).2; omega⟩⟩

/-- One parser after the other, of which the first reads `m` tokens. -/
theorem bind {m : Nat} (hp : SameAt m us p q)
    (hf : ∀ a vs, vs <:+ us → vs.length + m ≤ us.length → SameAt n vs (f a) (g a)) :
    SameAt (m + n) us (p >>= f) (q >>= g) := by
  constructor
  · change (p >>= f).run us = (q >>= g).run us
    rw [run_bind, run_bind, run, run, ← hp.1]
    rcases hfirst : p us with e | first
    · rfl
    · obtain ⟨hrest, hlength⟩ := hp.2 first hfirst
      dsimp only
      rw [run, run, (hf first.value first.rest hrest hlength).1]
  · intro parsed hok
    obtain ⟨first, second, hfirst, hsecond, rfl⟩ := bind_eq_ok.1 hok
    obtain ⟨hrest, hlength⟩ := hp.2 first hfirst
    obtain ⟨hrest', hlength'⟩ := (hf first.value first.rest hrest hlength).2 second hsecond
    exact ⟨hrest'.trans hrest, by dsimp only; omega⟩

/-- What is read behind a parser, whether or not this one reads anything. -/
theorem before {m : Nat} (hp : SameAt m us p q)
    (hf : ∀ a vs, vs <:+ us → SameAt n vs (f a) (g a)) : SameAt n us (p >>= f) (q >>= g) :=
  (hp.bind fun a vs hvs _ => hf a vs hvs).mono (Nat.le_add_left n m)

/-- What is read behind a token is left out of account. -/
theorem first (hp : SameAt 1 us p q)
    (hf : ∀ a vs, vs <:+ us → vs.length < us.length → SameAt 0 vs (f a) (g a)) :
    SameAt 1 us (p >>= f) (q >>= g) :=
  hp.bind hf

/-- A parser that does not depend on anything else. -/
theorem refl (h : ∀ parsed, p us = .ok parsed →
    parsed.rest <:+ us ∧ parsed.rest.length + n ≤ us.length) : SameAt n us p p :=
  ⟨rfl, h⟩

/-- A parser that goes along the tokens, whether or not it reads any. -/
theorem of_suffix (h : ∀ parsed, p us = .ok parsed → parsed.rest <:+ us) : SameAt 0 us p p :=
  refl fun parsed hok => ⟨h parsed hok, (h parsed hok).length_le⟩

/-- A parser that fails leaves nothing, and so as little as one likes. -/
theorem fails {e : Failure} (h : p us = .error e) : SameAt n us p p :=
  refl fun parsed hok => by
    rw [h] at hok
    cases hok

theorem wanted (what : Wanted) : SameAt n us (Parser.wanted what : Parser α) (Parser.wanted what) :=
  fails rfl

theorem fail (cause : Cause) : SameAt n us (Parser.fail cause : Parser α) (Parser.fail cause) :=
  fails rfl

theorem failAt (pos : Option Position) (cause : Cause) :
    SameAt n us (Parser.failAt pos cause : Parser α) (Parser.failAt pos cause) :=
  fails rfl

theorem pure (a : α) : SameAt 0 us (Pure.pure a : Parser α) (Pure.pure a) :=
  of_suffix fun _ hok => by
    cases hok
    exact List.suffix_refl us

theorem peek (i : Nat) : SameAt 0 us (Parser.peek i) (Parser.peek i) :=
  of_suffix fun _ hok => by
    cases hok
    exact List.suffix_refl us

theorem here : SameAt 0 us Parser.here Parser.here :=
  of_suffix fun _ hok => by
    cases hok
    exact List.suffix_refl us

theorem refer (reference : Reference) :
    SameAt 0 us (Parser.refer reference) (Parser.refer reference) :=
  of_suffix fun _ hok => by
    cases hok
    exact List.suffix_refl us

theorem at? (kind : Kind) : SameAt 0 us (Parser.at? kind) (Parser.at? kind) :=
  (peek 0).before fun _ _ _ => pure _

theorem skipSemicolons : SameAt 0 us Parser.skipSemicolons Parser.skipSemicolons :=
  of_suffix fun _ hok => by
    cases hok
    exact List.dropWhile_suffix _

/-- A token that is wanted and found is read. -/
theorem expect (kind : Kind) (what : Wanted) :
    SameAt 1 us (Parser.expect kind what) (Parser.expect kind what) :=
  refl fun parsed hok => by
    rcases us with _ | ⟨t, vs⟩
    · cases hok
    · rw [Parser.expect] at hok
      split at hok <;> cases hok
      exact ⟨List.suffix_cons t vs, le_refl _⟩

/-- What is read behind a parser of which is known what it makes of the tokens. -/
theorem of_ok {vs : List Token} {a : α} (hok : p us = .ok ⟨a, [], vs⟩) (hvs : vs <:+ us)
    (h : SameAt n vs (f a) (g a)) : SameAt n us (p >>= f) (p >>= g) := by
  rw [SameAt, bind_of_ok hok, bind_of_ok hok]
  refine ⟨h.1, fun parsed hparsed => ?_⟩
  obtain ⟨hrest, hlength⟩ := h.2 parsed hparsed
  exact ⟨hrest.trans hvs, hlength.trans hvs.length_le⟩

/-- What is read behind a token that is there and skipped. -/
theorem behind_skip (t : Token) {vs : List Token} {p q : Parser α} (h : SameAt 0 vs p q) :
    SameAt 1 (t :: vs) (skip >>= fun _ => p) (skip >>= fun _ => q) := by
  have hskip : skip (t :: vs) = .ok ⟨(), [], vs⟩ := rfl
  rw [SameAt, bind_of_ok hskip, bind_of_ok hskip]
  refine ⟨h.1, fun parsed hparsed => ?_⟩
  obtain ⟨hrest, hlength⟩ := h.2 parsed hparsed
  exact ⟨hrest.trans (List.suffix_cons t vs), Nat.succ_le_succ hlength⟩

/-- What is read behind a token that may be there. -/
theorem accept (kind : Kind) {f g : Bool → Parser β}
    (hno : SameAt n us (f false) (g false))
    (hyes : ∀ vs, vs <:+ us → vs.length < us.length → SameAt n vs (f true) (g true)) :
    SameAt n us (Parser.accept kind >>= f) (Parser.accept kind >>= g) := by
  by_cases hkind : nextKind us = some kind
  · rcases us with _ | ⟨t, vs⟩
    · cases hkind
    · have hvs : vs <:+ t :: vs := List.suffix_cons t vs
      exact of_ok (accept_of_eq (Option.some.inj hkind) vs) hvs (hyes vs hvs (Nat.lt_succ_self _))
  · exact of_ok (accept_of_ne hkind) (List.suffix_refl us) hno

/-- Alternatives that both parsers choose between in the same way. -/
theorem ite {c : Prop} [Decidable c] {p' q' : Parser α} (hyes : SameAt n us p q)
    (hno : SameAt n us p' q') : SameAt n us (if c then p else p') (if c then q else q') := by
  split
  · exact hyes
  · exact hno

/-- The bound of a loop is told from the tokens, which are the same. -/
theorem bounded {p q : Nat → Parser α} (h : ∀ k, SameAt n us (p k) (q k)) :
    SameAt n us (Parser.bounded p) (Parser.bounded q) :=
  h (us.length + 1)

theorem skip : SameAt 0 us Parser.skip Parser.skip :=
  of_suffix fun _ hok => by
    cases hok
    exact List.tail_suffix us

end SameAt

/-! ### Budgets

The budget of a reader is one more than the number of its tokens. What is shown is that this is enough,
which is a statement on two budgets that are both enough. -/

/-- **A budget that exceeds the number of tokens is enough**: a reader on a budget goes on as if it
had none, if each of its steps goes on only behind a token. -/
theorem bounded_eq_step {p : Nat → Parser α} {step : Parser α → Parser α}
    (hsucc : ∀ k, p (k + 1) = step (p k)) (hp : ∀ k us, SameAt n us (p k) (p k))
    (hstep : ∀ us more more', SameBehind n us more more' → step more us = step more' us) :
    bounded p = step (bounded p) := by
  -- on the number of tokens, for two budgets that exceed it: both steps go on with less
  have hbudget (us : List Token) : ∀ k m, us.length < k → us.length < m → p k us = p m us := by
    induction hlength : us.length using Nat.strong_induction_on generalizing us with
    | _ length ih =>
      intro k m hk hm
      obtain ⟨k, rfl⟩ := Nat.exists_eq_succ_of_ne_zero (Nat.ne_zero_of_lt hk)
      obtain ⟨m, rfl⟩ := Nat.exists_eq_succ_of_ne_zero (Nat.ne_zero_of_lt hm)
      rw [hsucc, hsucc]
      refine hstep us _ _ fun vs _ hlt => ⟨?_, (hp k vs).2⟩
      exact ih vs.length (by omega) vs rfl k m (by omega) (by omega)
  funext us
  change p (us.length + 1) us = _
  rw [hsucc]
  refine hstep us _ _ fun vs _ hlt => ⟨?_, (hp _ vs).2⟩
  exact hbudget vs _ _ hlt (Nat.lt_succ_self _)

/-- **A loop**: rounds follow one another, and a round goes on only behind a token that it has read.
-/
structure Loop (reader : Parser α) (round : Parser α → Parser α) : Prop where
  eq_round : reader = round reader
  guarded : ∀ us more more', SameBehind 0 us more more' → SameAt 0 us (round more) (round more')

/-- A loop on a budget is a loop. -/
theorem Loop.bounded {p : Nat → Parser α} {round : Parser α → Parser α}
    (hzero : ∀ us, SameAt 0 us (p 0) (p 0)) (hsucc : ∀ k, p (k + 1) = round (p k))
    (hround : ∀ us more more', SameBehind 0 us more more' →
      SameAt 0 us (round more) (round more')) :
    Loop (Parser.bounded p) round where
  eq_round := by
    refine bounded_eq_step hsucc (fun k => ?_) fun us more more' h => (hround us more more' h).1
    induction k with
    | zero => exact hzero
    | succ k ih => exact fun us => hsucc k ▸ hround us _ _ fun vs _ _ => ih vs
  guarded := hround

/-- What a loop leaves is left of what it was given. -/
theorem Loop.same {reader : Parser α} {round : Parser α → Parser α} (h : Loop reader round)
    (us : List Token) : SameAt 0 us reader reader := by
  induction hlength : us.length using Nat.strong_induction_on generalizing us with
  | _ length ih =>
    have hround := h.guarded us reader reader fun vs _ hlt =>
      ih vs.length (hlength ▸ hlt) vs rfl
    rwa [← h.eq_round] at hround

/-- A list of names takes at least one. -/
theorem same_names (us : List Token) : SameAt 1 us names names := by
  refine .refl fun parsed hok => ?_
  obtain ⟨ts, rest, rfl, hnames⟩ := names_eq_ok.1 hok
  clear hok
  dsimp only
  induction hnames with
  | last => exact ⟨List.suffix_cons _ _, le_refl _⟩
  | @more t comma tokens ts rest _ _ _ ih =>
    exact ⟨ih.1.trans ⟨[t, comma], rfl⟩, by simp only [List.length_cons]; omega⟩

end Parser

/-! ### Parameter lists

An entry of a parameter list may begin with its type, so that types are asked for on all that is left of
the tokens of an entry. It is the parenthesis in front of the list that makes it less than the tokens of
the list. -/

section

variable {scope : Scope} {us : List Token} {type type' : Parser GoType}

/-- A local type is put together without reading a token. -/
theorem same_localType (name : String) (pos : Position) :
    SameAt 0 us (scope.localType name pos) (scope.localType name pos) :=
  .ite (.pure _) ((SameAt.refer _).before fun _ _ _ => .pure _)

/-- The name of a type takes a token. -/
theorem same_typeName : SameAt 1 us scope.typeName scope.typeName := by
  refine (SameAt.expect _ _).first fun t vs hvs hlt => ?_
  have hplain (type : GoType) (ws : List Token) : SameAt 0 ws
      (Parser.at? .leftBracket >>= fun b =>
        if b then failAt t.pos .instantiation >>= fun _ : Unit => pure type else pure type)
      (Parser.at? .leftBracket >>= fun b =>
        if b then failAt t.pos .instantiation >>= fun _ : Unit => pure type else pure type) :=
    (SameAt.at? _).before fun b _ _ => .ite (.fails rfl) (.pure _)
  refine .accept _ ?_ fun ws hws _ => ?_
  · exact (same_localType _ _).before fun type ws _ => hplain type ws
  · refine (SameAt.expect _ _).before fun second xs hxs => ?_
    split
    · exact (SameAt.pure _).before fun type ys _ => hplain type ys
    · exact .fails rfl

/-- One entry is read from a token on. -/
theorem same_entry (htype : SameOn 1 us type type') :
    SameAt 1 us (Entry.parse type) (Entry.parse type') := by
  have hwritten (make : Bool → GoType → Entry) {vs : List Token} (hvs : vs <:+ us) : SameAt 1 vs
      (accept .ellipsis >>= fun dots => type >>= fun written => pure (make dots written))
      (accept .ellipsis >>= fun dots => type' >>= fun written => pure (make dots written)) :=
    .accept _ ((htype vs hvs).first fun _ _ _ _ => .pure _)
      fun ws hws _ => (htype ws (hws.trans hvs)).first fun _ _ _ _ => .pure _
  rcases us with _ | ⟨t, vs⟩
  · exact .fails rfl
  · have hvs : vs <:+ t :: vs := List.suffix_cons t vs
    simp only [SameAt, Entry.parse]
    split
    · refine ⟨rfl, fun parsed hok => ?_⟩
      cases hok
      exact ⟨hvs, le_refl _⟩
    · split
      · obtain ⟨heq, hleft⟩ := hwritten (.named t.text · · t.pos) hvs
        refine ⟨heq, fun parsed hok => ?_⟩
        obtain ⟨hrest, hlength⟩ := hleft parsed hok
        exact ⟨hrest.trans hvs, hlength.trans hvs.length_le⟩
      · exact hwritten (.unnamed · · t.pos) (List.suffix_refl _)

/-- One round of the loop that reads entries. -/
def Entry.further (type : Parser GoType) (more : Parser (List Entry)) : Parser (List Entry) := do
  if ← accept .rightParen then return []
  let first ← parse type
  unless ← accept .comma do
    unless ← at? .rightParen do
      wanted .commaOrParen
  let others ← more
  return first :: others

/-- One entry of a parameter list, and the entries behind it. -/
theorem same_further {more more' : Parser (List Entry)} (htype : SameOn 1 us type type')
    (hmore : SameBehind 0 us more more') :
    SameAt 0 us (Entry.further type more) (Entry.further type' more') := by
  refine .accept _ ?_ fun _ _ _ => .pure _
  refine ((same_entry htype).first fun e vs hvs hlt => ?_).mono (Nat.zero_le 1)
  have hothers {ws : List Token} (hws : ws <:+ vs) :
      SameAt 0 ws (more >>= fun others => pure (e :: others))
        (more' >>= fun others => pure (e :: others)) :=
    (hmore.on hvs hlt ws hws).before fun _ _ _ => .pure _
  refine .accept _ ?_ fun ws hws _ => hothers hws
  refine (SameAt.at? _).before fun closes ws hws => .ite (hothers hws) (.fails rfl)

/-- The entries of a parameter list ask for types only at what is left of their tokens. -/
theorem same_entries (htype : SameOn 1 us type type') (n : Nat) :
    SameAt 0 us (Entry.parseAll type n) (Entry.parseAll type' n) := by
  induction n generalizing us with
  | zero => exact .wanted _
  | succ n ih => exact same_further htype fun vs hvs _ => ih (htype.suffix hvs)

/-- To make parameters of entries reads nothing. -/
theorem same_resolve (allowDots named : Bool) (es : List Entry) (waiting : List String) :
    SameAt 0 us (resolve scope allowDots named es waiting)
      (resolve scope allowDots named es waiting) := by
  induction es generalizing waiting us with
  | nil => cases waiting with
    | nil => exact .pure _
    | cons => exact .fail _
  | cons e es ih => cases e with
    | lone name pos =>
      refine .ite (ih _) ?_
      exact (same_localType _ _).before fun _ _ _ => (ih _).before fun _ _ _ => .pure _
    | named name dots type pos =>
      exact .ite (.failAt _ _) ((ih _).before fun _ _ _ => .pure _)
    | unnamed dots type pos =>
      exact .ite (.failAt _ _) (.ite (.failAt _ _) ((ih _).before fun _ _ _ => .pure _))

/-- Behind its parenthesis, a parameter list asks for types at less than its tokens. -/
theorem same_parameters (htype : SameBehind 1 us type type') (allowDots : Bool) :
    SameAt 1 us (parameters scope type allowDots) (parameters scope type' allowDots) := by
  refine (SameAt.expect _ _).first fun _ vs hvs hlt => ?_
  refine (SameAt.bounded (same_entries (htype.on hvs hlt))).before fun es ws _ => ?_
  exact same_resolve _ _ es []

/-- A signature asks for types behind the parenthesis of its parameters only. -/
theorem same_signature (htype : SameBehind 1 us type type') :
    SameAt 1 us (signature scope type) (signature scope type') := by
  refine (same_parameters htype true).first fun list vs hvs hlt => ?_
  have hinside := htype.on hvs hlt
  refine (SameAt.at? _).before fun paren ws hws => (SameAt.peek 0).before fun next xs hxs => ?_
  have hxs := hinside.suffix (hxs.trans hws)
  refine .ite ?_ (.ite ?_ ?_)
  · refine (same_parameters hxs.behind false).before fun results _ _ => ?_
    exact (SameAt.pure _).before fun _ _ _ => .pure _
  · refine (hxs _ (List.suffix_refl _)).before fun result _ _ => ?_
    exact (SameAt.pure _).before fun _ _ _ => .pure _
  · exact (SameAt.pure _).before fun _ _ _ => .pure _

/-! ### Bodies -/

/-- One round of the loop that reads what stands between braces. -/
def Parser.bracedRound {α : Type} (item : Parser α) (more : Parser (List α)) : Parser (List α) := do
  skipSemicolons
  if ← accept .rightBrace then return []
  let first ← item
  unless ← at? .rightBrace do
    let _ ← expect .semicolon .semicolonOrBrace
  let others ← more
  return first :: others

section

variable {α : Type} {item item' : Parser α}

/-- One item of a body, and the items behind it. -/
theorem same_bracedRound {more more' : Parser (List α)} (hitem : SameOn 1 us item item')
    (hmore : SameBehind 0 us more more') :
    SameAt 0 us (bracedRound item more) (bracedRound item' more') := by
  refine SameAt.skipSemicolons.before fun _ vs hvs => .accept _ ?_ fun _ _ _ => .pure _
  refine (SameAt.first (hitem vs hvs) fun a ws hws hlt => ?_).mono (Nat.zero_le 1)
  have hothers {xs : List Token} (hxs : xs <:+ ws) :
      SameAt 0 xs (more >>= fun others => pure (a :: others))
        (more' >>= fun others => pure (a :: others)) :=
    (hmore.on (hws.trans hvs) (hlt.trans_le hvs.length_le) xs hxs).before fun _ _ _ => .pure _
  refine (SameAt.at? _).before fun closes xs hxs => .ite (hothers hxs) ?_
  exact (SameAt.expect _ _).before fun _ ys hys => hothers (hys.trans hxs)

/-- The items of a body are asked for only at what is left of its tokens. -/
theorem same_braced (hitem : SameOn 1 us item item') (n : Nat) :
    SameAt 0 us (braced item n) (braced item' n) := by
  induction n generalizing us with
  | zero => exact .wanted _
  | succ n ih => exact same_bracedRound hitem fun vs hvs _ => ih (hitem.suffix hvs)

end

/-- Reads an element of an interface, given the reader of its signature. -/
def elementWith (signature : Parser Signature) (type : Parser GoType) : Parser Element := do
  match ← peek 0, ← peek 1 with
  | some .identifier, some .leftParen =>
    let first ← name
    let signature ← signature
    return .method ⟨first.text, signature⟩
  | some .tilde, _ => fail .constraint
  | _, _ =>
    let pos ← here
    let embedded ← type
    if ← at? .pipe then failAt pos .constraint
    return .embed embedded

/-- An element of an interface: the signature stands behind a name, an embedded type may stand
first. -/
theorem same_element {sig sig' : Parser Signature} (hsig : SameBehind 1 us sig sig')
    (htype : SameOn 1 us type type') :
    SameAt 1 us (elementWith sig type) (elementWith sig' type') := by
  refine (SameAt.peek 0).before fun next vs hvs => (SameAt.peek 1).before fun second ws hws => ?_
  have hus := hws.trans hvs
  split
  · refine (SameAt.expect _ _).first fun first xs hxs hlt => ?_
    exact (hsig xs (hxs.trans hus) (hlt.trans_le hus.length_le)).before fun _ _ _ => .pure _
  · exact .fail _
  · refine SameAt.here.before fun pos xs hxs => ?_
    refine (htype xs (hxs.trans hus)).first fun embedded _ _ _ => ?_
    exact (SameAt.at? _).before fun union _ _ => .ite (.fails rfl) (.pure _)

/-- Reads the body of an interface, given the reader of signatures. -/
def interfaceWith (signature : Parser Signature) (type : Parser GoType) : Parser Interface := do
  let _ ← expect .leftBrace .leftBrace
  let elements ← bounded (braced (elementWith signature type))
  return interfaceOf elements

/-- Behind its brace, an interface asks for its elements at less than its tokens. -/
theorem same_interface {sig sig' : Parser Signature} (hsig : SameBehind 1 us sig sig')
    (htype : SameBehind 1 us type type') :
    SameAt 1 us (interfaceWith sig type) (interfaceWith sig' type') := by
  refine (SameAt.expect _ _).first fun _ vs hvs hlt => ?_
  have helement : SameOn 1 vs (elementWith sig type) (elementWith sig' type') := fun ws hws =>
    same_element (hsig.suffix (hws.trans hvs)) ((htype.on hvs hlt).suffix hws)
  exact (SameAt.bounded (same_braced helement)).before fun _ _ _ => .pure _

/-- A tag is read or not, and asks for nothing. -/
theorem same_tag : SameAt 0 us tag tag := by
  refine .of_suffix fun parsed hok => ?_
  rcases us with _ | ⟨t, vs⟩
  · cases hok
    exact List.suffix_refl _
  · rw [tag] at hok
    split at hok <;> cases hok
    · exact List.suffix_cons t vs
    · exact List.suffix_refl _

/-- A line of fields may begin with its type, if the type is embedded. -/
theorem same_fields (htype : SameOn 1 us type type') :
    SameAt 1 us (fields type) (fields type') := by
  have hembedded {vs : List Token} (hvs : vs <:+ us) :
      SameAt 1 vs (embeddedField type) (embeddedField type') :=
    (htype vs hvs).first fun _ _ _ _ => same_tag.before fun _ _ _ => .pure _
  have hnamed {vs : List Token} (hvs : vs <:+ us) :
      SameAt 1 vs (namedFields type) (namedFields type') := by
    refine (same_names vs).first fun declared ws hws _ => ?_
    exact (htype ws (hws.trans hvs)).before fun _ _ _ => same_tag.before fun _ _ _ => .pure _
  refine (SameAt.peek 0).before fun next vs hvs => ?_
  split
  · exact hembedded hvs
  · refine (SameAt.peek 1).before fun second ws hws => ?_
    exact .ite (hembedded (hws.trans hvs)) (hnamed (hws.trans hvs))
  · exact .wanted _

/-- Behind its brace, a struct asks for its fields at less than its tokens. -/
theorem same_structBody (htype : SameBehind 1 us type type') :
    SameAt 1 us (structBody type) (structBody type') := by
  refine (SameAt.expect _ _).first fun _ vs hvs hlt => ?_
  have hfields : SameOn 1 vs (fields type) (fields type') := fun ws hws =>
    same_fields ((htype.on hvs hlt).suffix hws)
  exact (SameAt.bounded (same_braced hfields)).before fun _ _ _ => .pure _

/-! ### Types

A descent begins at the kinds of types that have types inside. The first token of each is read before
anything else, and a name has no types inside. -/

/-- The length of an array asks for nothing. -/
theorem same_arrayLength : SameAt 0 us arrayLength arrayLength := by
  refine .of_suffix fun parsed hok => ?_
  obtain ⟨inside, hlength, -⟩ := lengthTokens_of_arrayLength hok
  exact suffix_of_lengthTokens hlength

end

/-- The readers that types are read with. -/
structure Readers where
  type : Parser GoType
  signature : Parser Signature
  interface : Parser Interface
  struct : Parser (List Field)

/-- Reads a type, given the readers of what is inside. -/
def Readers.nextType (scope : Scope) (r : Readers) : Parser GoType := do
  match ← peek 0 with
  | some .identifier => scope.typeName
  | some .star =>
    skip
    return .pointer (← r.type)
  | some .leftBracket =>
    skip
    if ← accept .rightBracket then
      return .slice (← r.type)
    let length ← arrayLength
    return .array length (← r.type)
  | some (.keyword .mapKw) =>
    skip
    let _ ← expect .leftBracket .leftBracket
    let key ← r.type
    let _ ← expect .rightBracket .rightBracket
    return .map key (← r.type)
  | some (.keyword .chanKw) =>
    skip
    let direction := if ← accept .arrow then .send else .both
    return .chan direction (← r.type)
  | some .arrow =>
    skip
    let _ ← expect (.keyword .chanKw) .chanKeyword
    return .chan .receive (← r.type)
  | some (.keyword .funcKw) =>
    skip
    return .func (← r.signature)
  | some (.keyword .interfaceKw) =>
    skip
    return .interface (← r.interface)
  | some (.keyword .structKw) =>
    skip
    return .struct (← r.struct)
  | some .leftParen =>
    skip
    let inner ← r.type
    let _ ← expect .rightParen .rightParen
    return inner
  | _ => wanted .type

namespace Readers

/-- **One descent**: the readers that read what is inside with the readers that are given. -/
def next (scope : Scope) (r : Readers) : Readers where
  type := r.nextType scope
  signature := Syntax.signature scope r.type
  interface := interfaceWith r.signature r.type
  struct := structBody r.type

/-- The readers that read types in one way. -/
def ofType (scope : Scope) (type : Parser GoType) : Readers where
  type := type
  signature := Syntax.signature scope type
  interface := interfaceBody scope type
  struct := structBody type

/-- **Two families of readers do the same on some tokens**, and read one of them at least. -/
structure SameAt (us : List Token) (r r' : Readers) : Prop where
  type : Parser.SameAt 1 us r.type r'.type
  signature : Parser.SameAt 1 us r.signature r'.signature
  interface : Parser.SameAt 1 us r.interface r'.interface
  struct : Parser.SameAt 1 us r.struct r'.struct

/-- Two families of readers do the same on what is left of some tokens when at least one of them was
read. -/
def SameBehind (us : List Token) (r r' : Readers) : Prop :=
  ∀ vs, vs <:+ us → vs.length < us.length → r.SameAt vs r'

variable {scope : Scope} {us : List Token} {r r' : Readers}

/-- **A descent is behind a token**: each kind of type but a name begins with one that is read
before anything inside it. -/
theorem same_nextType (h : r.SameBehind us r') :
    Parser.SameAt 1 us (r.nextType scope) (r'.nextType scope) := by
  rcases us with _ | ⟨t, vs⟩
  · exact .fails rfl
  have hvs : vs <:+ t :: vs := List.suffix_cons t vs
  have hinside : Parser.SameOn 1 vs r.type r'.type := fun ws hws =>
    (h ws (hws.trans hvs) (Nat.lt_succ_of_le hws.length_le)).type
  have htype {ws : List Token} (hws : ws <:+ vs) {make : GoType → GoType} : Parser.SameAt 0 ws
      (r.type >>= fun inner => pure (make inner)) (r'.type >>= fun inner => pure (make inner)) :=
    (hinside ws hws).before fun _ _ _ => .pure _
  obtain ⟨-, hsignature, hinterface, hstruct⟩ := h vs hvs (Nat.lt_succ_self _)
  -- every type begins with a token, and what is inside begins behind this one
  refine .of_ok (a := some t.kind) rfl (List.suffix_refl _) ?_
  split
  · exact same_typeName
  · exact .behind_skip t (htype (List.suffix_refl _))
  · refine .behind_skip t (.accept _ ?_ fun ws hws _ => htype hws)
    exact same_arrayLength.before fun _ ws hws => htype hws
  · refine .behind_skip t ((SameAt.expect _ _).before fun _ ws hws => ?_)
    refine (hinside ws hws).before fun key xs hxs => (SameAt.expect _ _).before fun _ ys hys => ?_
    exact htype (hys.trans (hxs.trans hws))
  · exact .behind_skip t (.accept _ (htype (List.suffix_refl _)) fun ws hws _ => htype hws)
  · exact .behind_skip t ((SameAt.expect _ _).before fun _ ws hws => htype hws)
  · exact .behind_skip t (hsignature.before fun _ _ _ => .pure _)
  · exact .behind_skip t (hinterface.before fun _ _ _ => .pure _)
  · exact .behind_skip t (hstruct.before fun _ _ _ => .pure _)
  · refine .behind_skip t ((hinside vs (List.suffix_refl _)).before fun inner ws hws => ?_)
    exact (SameAt.expect _ _).before fun _ _ _ => .pure _
  · exact .wanted _

/-- **One descent is guarded**: what is read from some tokens depends on the readers of what is
inside only where at least one of these tokens has been read. -/
theorem same_next (h : r.SameBehind us r') : (r.next scope).SameAt us (r'.next scope) where
  type := same_nextType h
  signature := same_signature fun vs hvs hlt => (h vs hvs hlt).type
  interface := same_interface (fun vs hvs hlt => (h vs hvs hlt).signature) fun vs hvs hlt =>
    (h vs hvs hlt).type
  struct := same_structBody fun vs hvs hlt => (h vs hvs hlt).type

/-- Readers that read types alike read everything alike. -/
theorem same_ofType {type type' : Parser GoType} (h : Parser.SameOn 1 us type type') :
    (ofType scope type).SameAt us (ofType scope type') where
  type := h us (List.suffix_refl us)
  signature := same_signature h.behind
  interface := same_interface (fun _ hvs _ => same_signature (h.suffix hvs).behind) h.behind
  struct := same_structBody h.behind

end Readers

section

variable {scope : Scope}

/-- The reader of types with a budget takes a token of each type. -/
theorem same_typeWithin (n : Nat) (us : List Token) :
    SameAt 1 us (typeWithin scope n) (typeWithin scope n) := by
  induction n generalizing us with
  | zero => exact .wanted _
  | succ n ih => exact Readers.same_nextType fun _ _ _ => Readers.same_ofType fun ws _ => ih ws

/-- The reader of types takes a token of each type. -/
theorem same_typeExpr (us : List Token) : SameAt 1 us (typeExpr scope) (typeExpr scope) :=
  .bounded fun n => same_typeWithin n us

/-- The readers of a scope. -/
def Scope.readers (scope : Scope) : Readers :=
  .ofType scope (typeExpr scope)

/-- **The readers of a scope descend without budgets.** -/
theorem Scope.next_readers (scope : Scope) : scope.readers.next scope = scope.readers := by
  have htype : typeExpr scope = (Readers.ofType scope (typeExpr scope)).nextType scope :=
    bounded_eq_step (fun _ => rfl) same_typeWithin fun us more more' h =>
      (Readers.same_nextType fun _ hvs hlt => Readers.same_ofType (h.on hvs hlt)).1
  change Readers.mk ((Readers.ofType scope (typeExpr scope)).nextType scope) _ _ _ =
    Readers.mk (typeExpr scope) _ _ _
  rw [← htype]
  rfl

/-- Nothing else descends like the readers of a scope. -/
theorem Scope.eq_readers {r : Readers} (h : r.next scope = r) : r = scope.readers := by
  -- both are one descent away from themselves, so they agree if they agree on fewer tokens
  have hsame (us : List Token) : r.SameAt us scope.readers := by
    induction hlength : us.length using Nat.strong_induction_on generalizing us with
    | _ length ih =>
      have hnext : (r.next scope).SameAt us (scope.readers.next scope) :=
        Readers.same_next fun vs _ hlt => ih vs.length (hlength ▸ hlt) vs rfl
      rwa [h, scope.next_readers] at hnext
  have htype : r.type = scope.readers.type := funext fun us => (hsame us).type.1
  have hsignature : r.signature = scope.readers.signature := funext fun us => (hsame us).signature.1
  have hinterface : r.interface = scope.readers.interface := funext fun us => (hsame us).interface.1
  have hstruct : r.struct = scope.readers.struct := funext fun us => (hsame us).struct.1
  rcases r with ⟨type, signature, interface, struct⟩
  dsimp only at htype hsignature hinterface hstruct
  rw [htype, hsignature, hinterface, hstruct]

/-- Every reader of a scope reads a token at least. -/
theorem Scope.same_readers (scope : Scope) (us : List Token) :
    scope.readers.SameAt us scope.readers :=
  Readers.same_ofType fun vs _ => same_typeExpr vs

/-! ### Loops in types -/

/-- One round of the loop that reads names. -/
def Parser.namesRound (more : Parser (List Token)) : Parser (List Token) := do
  let first ← name
  if ← accept .comma then
    let others ← more
    return first :: others
  return [first]

/-- Names are read in a loop: each round takes a name, and is followed by another one behind a
comma. -/
theorem loop_names : Loop names namesRound where
  eq_round := by
    funext us
    rcases us with _ | ⟨t, rest⟩
    · rfl
    by_cases ht : t.kind = .identifier
    · have hname : name (t :: rest) = .ok ⟨t, [], rest⟩ := if_pos ht
      refine Eq.trans ?_ (bind_of_ok hname).symm
      rcases rest with _ | ⟨comma, rest⟩
      · exact if_pos ht
      rw [names, if_pos ht]
      by_cases hcomma : comma.kind = .comma
      · rw [if_pos hcomma, bind_of_ok (accept_of_eq hcomma rest)]
        change _ = andThen names (fun others => done (t :: others)) rest
        unfold andThen
        rcases names rest with e | more
        · rfl
        · simp [done, bind, Except.bind, pure, Except.pure]
      · rw [if_neg hcomma, bind_of_ok (accept_of_ne (by simpa [nextKind] using hcomma))]
        rfl
    · have hname : name (t :: rest) = wanted .name (t :: rest) := if_neg ht
      change _ = (name >>= fun first => _ : Parser _).run (t :: rest)
      rw [run_bind, run, hname]
      rcases rest with _ | ⟨comma, rest⟩ <;> exact if_neg ht
  guarded us more more' hmore := by
    refine ((SameAt.expect _ _).first fun first vs hvs hlt => ?_).mono (Nat.zero_le 1)
    refine .accept _ (.pure _) fun ws hws _ => ?_
    exact (hmore.on hvs hlt ws hws).before fun _ _ _ => .pure _

/-- The entries of a parameter list are read in a loop. -/
theorem loop_entries :
    Loop (bounded (Entry.parseAll (typeExpr scope))) (Entry.further (typeExpr scope)) :=
  .bounded (fun _ => .wanted _) (fun _ => rfl) fun _ _ _ =>
    same_further fun vs _ => same_typeExpr vs

/-- The items of a body are read in a loop, if each of them takes a token. -/
theorem loop_braced {α : Type} {item : Parser α} (hitem : ∀ us, SameAt 1 us item item) :
    Loop (bounded (braced item)) (bracedRound item) :=
  .bounded (fun _ => .wanted _) (fun _ => rfl) fun _ _ _ => same_bracedRound fun vs _ => hitem vs

/-- The elements of an interface are read in a loop. -/
theorem loop_elements :
    Loop (bounded (braced (element scope (typeExpr scope))))
      (bracedRound (element scope (typeExpr scope))) := by
  refine loop_braced fun us => ?_
  have hsignature : SameBehind 1 us scope.readers.signature scope.readers.signature :=
    fun vs _ _ => (scope.same_readers vs).signature
  exact same_element hsignature fun vs _ => same_typeExpr vs

/-- The fields of a struct are read in a loop. -/
theorem loop_fields :
    Loop (bounded (braced (fields (typeExpr scope)))) (bracedRound (fields (typeExpr scope))) :=
  loop_braced fun _ => same_fields fun vs _ => same_typeExpr vs

end

end Multicast.Syntax
