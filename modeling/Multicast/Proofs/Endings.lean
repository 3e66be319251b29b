import Multicast.Proofs.Descents
import Multicast.Proofs.HeaderAgain

/-!
# What may end a spec

A spec ends in front of a semicolon, and the last one of a group may also end in front of the parenthesis that
closes the group. A type is read alike in front of either (`closes_typeDefinition`), although the readers of its
parts look at the token behind them: where they could tell the two apart, the type has not been read to its
end, and then the attempt fails for good.

`ClosesAt e short p front` says this of a parser `p` and some tokens, with one of the two tokens of `e` behind
them. The readers of names, lists and bodies are taken one after another, as they are nested in a type.

## Where the two ends could be told apart

A reader that looks at the next token finds a semicolon or a closing parenthesis there. Neither begins a
type, a result, a tag or a further name, so almost everywhere the answer is the same. Two places are
different. A body passes semicolons in front of each of its items and would pass the one at the end with
them; but it wants its brace then, and finds nothing. And a line of fields may be an embedded type, which
is told by a semicolon behind its name. There, too, the body that the line stands in is never closed.

So a parser either leaves the token at the end where it is, or is `short`: it has nothing left but that
token, or not even this, and whatever wants to read on refuses (`ClosesAt.seq`).
-/

namespace Multicast.Syntax

open Source Multicast.Syntax.Parser

/-- A semicolon, and another token that may end a spec. -/
structure Enders where
  semicolon : Token
  other : Token
  semicolon_kind : semicolon.kind = .semicolon
  other_kind : other.kind = .semicolon ∨ other.kind = .rightParen

namespace Enders

variable (e : Enders) {kind : Kind}

theorem nextKind_semicolon : nextKind [e.semicolon] = some .semicolon :=
  congrArg some e.semicolon_kind

theorem semicolon_ne (h : kind ≠ .semicolon) : e.semicolon.kind ≠ kind := by
  rw [e.semicolon_kind]
  exact h.symm

/-- The other token is of no kind but the two that may end a spec. -/
theorem other_ne (hsemicolon : kind ≠ .semicolon) (hparen : kind ≠ .rightParen) : e.other.kind ≠ kind := by
  rcases e.other_kind with h | h <;> rw [h]
  exacts [hsemicolon.symm, hparen.symm]

end Enders

namespace Parser

variable {α β : Type} {e : Enders} {short : Bool} {p q : Parser α} {f : α → Parser β} {front : List Token}

/-! ### Parsers that refuse their tokens

A refusal is a failure that makes the whole file fail. Failures for what cannot be described are not
refusals: the attempt is given up for them, and the declaration skipped. -/

/-- A parser refuses tokens: it fails, and not because something cannot be described. -/
def Refuses (p : Parser α) (tokens : List Token) : Prop :=
  ∃ failure, p tokens = .error failure ∧ failure.cause.isUnsupported = false

namespace Refuses

variable {tokens rest : List Token} {a : α}

/-- Asking for something that is not there is refused. -/
theorem wanted (what : Wanted) : Refuses (Parser.wanted what : Parser α) tokens :=
  ⟨_, rfl, rfl⟩

/-- A token of another kind than the wanted one is refused. -/
theorem expect {kind : Kind} (what : Wanted) (h : nextKind tokens ≠ some kind) :
    Refuses (Parser.expect kind what) tokens := by
  cases tokens with
  | nil => exact ⟨_, rfl, rfl⟩
  | cons t rest =>
    have ht : t.kind ≠ kind := by simpa [nextKind] using h
    exact ⟨_, if_neg ht, rfl⟩

/-- A refusal stops whatever would be read next. -/
theorem bind (h : Refuses p tokens) : Refuses (p >>= f) tokens := by
  obtain ⟨failure, herror, hcause⟩ := h
  exact ⟨failure, bind_eq_error.2 (.inl herror), hcause⟩

theorem congr {tokens' : List Token} (h : Refuses q tokens') (heq : p tokens = q tokens') : Refuses p tokens := by
  rwa [Refuses, heq]

/-- A parser refuses its tokens if what is read behind its first part refuses the rest. -/
theorem behind (hp : p tokens = .ok ⟨a, [], rest⟩) (h : Refuses (f a) rest) : Refuses (p >>= f) tokens := by
  obtain ⟨failure, herror, hcause⟩ := h
  exact ⟨failure, (bind_of_ok hp).trans herror, hcause⟩

end Refuses

/-! ### One token or another at the end -/

/-- **A parser reads tokens alike, whichever of two tokens stands behind them**: it leaves the token, and what it
cannot describe it gives up for the same cause. With `short` it may leave no more than the token, or nothing
at all, and then nothing is said of the other token. -/
structure ClosesAt (e : Enders) (short : Bool) (p : Parser α) (front : List Token) : Prop where
  reads : ∀ {parsed}, p (front ++ [e.semicolon]) = .ok parsed →
    (∃ rest, parsed.rest = rest ++ [e.semicolon] ∧
      p (front ++ [e.other]) = .ok { parsed with rest := rest ++ [e.other] }) ∨
    short = true ∧ (parsed.rest = [] ∨ parsed.rest = [e.semicolon])
  fails : ∀ {failure}, p (front ++ [e.semicolon]) = .error failure → failure.cause.isUnsupported = true →
    p (front ++ [e.other]) = .error failure

/-- A parser reads all tokens alike, whichever of two tokens stands behind them. -/
def Closes (e : Enders) (short : Bool) (p : Parser α) : Prop :=
  ∀ front, ClosesAt e short p front

namespace ClosesAt

/-- What is refused in front of a semicolon is no matter. -/
theorem of_refuses (h : Refuses p (front ++ [e.semicolon])) : ClosesAt e short p front := by
  obtain ⟨failure, herror, hcause⟩ := h
  constructor
  · intro parsed hok
    rw [herror] at hok
    cases hok
  · intro failure' herror' hcause'
    rw [herror] at herror'
    cases herror'
    rw [hcause] at hcause'
    cases hcause'

/-- What reads nothing, and does not look at its tokens. -/
theorem of_ok {a : α} {references : List Reference} (rest : List Token)
    (h : ∀ last, p (front ++ [last]) = .ok ⟨a, references, rest ++ [last]⟩) : ClosesAt e short p front := by
  constructor
  · intro parsed hok
    rw [h] at hok
    cases hok
    exact .inl ⟨rest, rfl, h _⟩
  · intro failure herror
    rw [h] at herror
    cases herror

/-- A failure for which it does not matter what is at the end. -/
theorem of_error {failure : Failure} (h : ∀ last, p (front ++ [last]) = .error failure) :
    ClosesAt e short p front := by
  constructor
  · intro parsed hok
    rw [h] at hok
    cases hok
  · intro failure' herror _
    rw [h] at herror ⊢
    exact herror

/-- What leaves the semicolon and nothing else. -/
theorem of_short {parsed : Parsed α} (h : p (front ++ [e.semicolon]) = .ok parsed)
    (hrest : parsed.rest = [e.semicolon]) : ClosesAt e true p front := by
  constructor
  · intro parsed' hok
    cases h.symm.trans hok
    exact .inr ⟨rfl, .inr hrest⟩
  · intro failure herror
    rw [h] at herror
    cases herror

/-- What is known of a parser on these tokens. -/
theorem congr {front' : List Token} (h : ClosesAt e short q front')
    (hsemicolon : p (front ++ [e.semicolon]) = q (front' ++ [e.semicolon]))
    (hother : p (front ++ [e.other]) = q (front' ++ [e.other])) : ClosesAt e short p front := by
  constructor
  · rw [hsemicolon, hother]
    exact h.reads
  · rw [hsemicolon, hother]
    exact h.fails

/-- Behind the first token the parser goes on as another one. -/
theorem cons {t : Token} (hp : ∀ rest, p (t :: rest) = q rest) (h : ClosesAt e short q front) :
    ClosesAt e short p (t :: front) :=
  h.congr (hp _) (hp _)

/-- Leaving the token at the end is more than having the choice to leave nothing. -/
theorem weaken (h : ClosesAt e false p front) : ClosesAt e short p front where
  reads hok := (h.reads hok).imp id fun hshort => by cases hshort.1
  fails := h.fails

theorem ite {c : Prop} [Decidable c] (hyes : c → ClosesAt e short p front) (hno : ¬c → ClosesAt e short q front) :
    ClosesAt e short (if c then p else q) front := by
  by_cases hc : c
  · simpa only [if_pos hc] using hyes hc
  · simpa only [if_neg hc] using hno hc

/-- What is read behind a parser that may have come to the end refuses what is left there. -/
theorem seq (hp : ClosesAt e true p front) (hf : ∀ a, Closes e short (f a)) (hnil : ∀ a, Refuses (f a) [])
    (hlast : ∀ a, Refuses (f a) [e.semicolon]) : ClosesAt e short (p >>= f) front := by
  -- whatever the first parser left, too little is left for the second one
  have hrefuses {first : Parsed α} (hrest : first.rest = [] ∨ first.rest = [e.semicolon]) :
      Refuses (f first.value) first.rest := by
    rcases hrest with hrest | hrest <;> rw [hrest]
    exacts [hnil _, hlast _]
  constructor
  · intro parsed hok
    obtain ⟨first, second, hfirst, hsecond, rfl⟩ := bind_eq_ok.1 hok
    rcases hp.reads hfirst with ⟨us, hus, hfirst'⟩ | ⟨-, hrest⟩
    · rw [hus] at hsecond
      refine ((hf _ us).reads hsecond).imp (fun ⟨vs, hvs, hsecond'⟩ => ⟨vs, hvs, ?_⟩) id
      exact bind_eq_ok.2 ⟨_, _, hfirst', hsecond', rfl⟩
    · obtain ⟨failure, herror, -⟩ := hrefuses hrest
      rw [herror] at hsecond
      cases hsecond
  · intro failure herror hcause
    rcases bind_eq_error.1 herror with hfirst | ⟨first, hfirst, hsecond⟩
    · exact bind_eq_error.2 (.inl (hp.fails hfirst hcause))
    · rcases hp.reads hfirst with ⟨us, hus, hfirst'⟩ | ⟨-, hrest⟩
      · rw [hus] at hsecond
        exact bind_eq_error.2 (.inr ⟨_, hfirst', (hf _ us).fails hsecond hcause⟩)
      · obtain ⟨failure', herror', hcause'⟩ := hrefuses hrest
        rw [herror'] at hsecond
        cases hsecond
        rw [hcause'] at hcause
        cases hcause

/-- What is read behind a parser that leaves the last token. -/
theorem bind (hp : ClosesAt e false p front) (hf : ∀ a, Closes e short (f a)) :
    ClosesAt e short (p >>= f) front := by
  -- the first parser leaves the token, so both are behind the same tokens when the second one starts
  constructor
  · intro parsed hok
    obtain ⟨first, second, hfirst, hsecond, rfl⟩ := bind_eq_ok.1 hok
    obtain ⟨us, hus, hfirst'⟩ | ⟨⟨⟩, -⟩ := hp.reads hfirst
    rw [hus] at hsecond
    refine ((hf _ us).reads hsecond).imp (fun ⟨vs, hvs, hsecond'⟩ => ⟨vs, hvs, ?_⟩) id
    exact bind_eq_ok.2 ⟨_, _, hfirst', hsecond', rfl⟩
  · intro failure herror hcause
    rcases bind_eq_error.1 herror with hfirst | ⟨first, hfirst, hsecond⟩
    · exact bind_eq_error.2 (.inl (hp.fails hfirst hcause))
    · obtain ⟨us, hus, hfirst'⟩ | ⟨⟨⟩, -⟩ := hp.reads hfirst
      rw [hus] at hsecond
      exact bind_eq_error.2 (.inr ⟨_, hfirst', (hf _ us).fails hsecond hcause⟩)

/-- The place of the next token is the same, if this token is not the one at the end. -/
theorem here {f : Option Position → Parser β} (t : Token) (h : ∀ pos, Closes e short (f pos)) :
    ClosesAt e short (Parser.here >>= f) (t :: front) :=
  (h (some t.pos) (t :: front)).congr (bind_of_ok rfl) (bind_of_ok rfl)

/-- Looking at the next token says the same before either end, if there is a token in front of the
end. -/
theorem peek {f : Option Kind → Parser β} (t : Token) (h : ClosesAt e short (f (some t.kind)) (t :: front)) :
    ClosesAt e short (Parser.peek 0 >>= f) (t :: front) :=
  h.congr (bind_of_ok rfl) (bind_of_ok rfl)

/-- A token that is there is passed before either end. -/
theorem skip {f : Unit → Parser β} (t : Token) (h : Closes e short (f ())) :
    ClosesAt e short (Parser.skip >>= f) (t :: front) :=
  (h front).cons fun _ => bind_of_ok rfl

end ClosesAt

namespace Closes

theorem pure (a : α) : Closes e short (Pure.pure a : Parser α) :=
  fun front => .of_ok front fun _ => rfl

/-- One parser behind another, where the first always leaves the token at the end. -/
theorem bind (hp : Closes e false p) (hf : ∀ a, Closes e short (f a)) : Closes e short (p >>= f) :=
  fun front => (hp front).bind hf

theorem ite {c : Prop} [Decidable c] (hyes : Closes e short p) (hno : Closes e short q) :
    Closes e short (if c then p else q) :=
  fun front => .ite (fun _ => hyes front) fun _ => hno front

/-- What refuses all tokens is no matter. -/
theorem stop (h : ∀ tokens, Refuses p tokens) : Closes e short p :=
  fun _ => .of_refuses (h _)

theorem failAt (pos : Option Position) (cause : Cause) : Closes e short (Parser.failAt pos cause : Parser α) :=
  fun _ => .of_error fun _ => rfl

theorem expect {kind : Kind} (what : Wanted) (hkind : kind ≠ .semicolon) :
    Closes e false (Parser.expect kind what) := by
  rintro (_ | ⟨t, front⟩)
  · refine .of_refuses (.expect _ ?_)
    rw [List.nil_append, e.nextKind_semicolon]
    simpa using hkind.symm
  · by_cases ht : t.kind = kind
    · exact .of_ok front fun _ => if_pos ht
    · exact .of_refuses (.expect _ (by simpa [nextKind] using ht))

/-- A parser that reads at most one token, of kinds that neither of the two has. -/
theorem optional {P : Kind → Prop} {make : Token → α} {nothing : α} (hsemicolon : ¬P .semicolon)
    (hparen : ¬P .rightParen) (hyes : ∀ t rest, P t.kind → p (t :: rest) = .ok ⟨make t, [], rest⟩)
    (hno : ∀ t rest, ¬P t.kind → p (t :: rest) = .ok ⟨nothing, [], t :: rest⟩) : Closes e false p := by
  -- with no token in front the parser is at the end, and sees neither kind it looks for
  rintro (_ | ⟨t, front⟩)
  · have hother : ¬P e.other.kind := by
      rcases e.other_kind with h | h <;> rw [h]
      exacts [hsemicolon, hparen]
    exact (pure nothing []).congr (hno _ _ (by rwa [e.semicolon_kind])) (hno _ _ hother)
  · by_cases ht : P t.kind
    · exact .of_ok front fun _ => hyes t _ ht
    · exact .of_ok (t :: front) fun _ => hno t _ ht

/-- A token that may be there or not, of a kind that neither of the two has. -/
theorem accept {kind : Kind} (hsemicolon : kind ≠ .semicolon) (hparen : kind ≠ .rightParen) :
    Closes e false (Parser.accept kind) :=
  optional (P := (· = kind)) hsemicolon.symm hparen.symm (fun _ rest ht => accept_of_eq ht rest)
    fun _ _ ht => accept_of_ne (by simpa [nextKind] using ht)

/-- Whether the next token is of a kind, which is the kind of neither of the two. -/
theorem at? {kind : Kind} (hsemicolon : kind ≠ .semicolon) (hparen : kind ≠ .rightParen) :
    Closes e false (Parser.at? kind) := by
  have hread (t : Token) (rest : List Token) :
      Parser.at? kind (t :: rest) = .ok ⟨decide (t.kind = kind), [], t :: rest⟩ := by
    rw [at?_eq]
    simp [nextKind, beq_eq_decide]
  -- the answer is no before either end, and otherwise that of a token in front
  rintro (_ | ⟨t, front⟩)
  · refine (pure false []).congr ((hread _ _).trans ?_) ((hread _ _).trans ?_)
    · rw [decide_eq_false (e.semicolon_ne hsemicolon)]
      rfl
    · rw [decide_eq_false (e.other_ne hsemicolon hparen)]
      rfl
  · exact .of_ok (t :: front) fun _ => hread _ _

/-- The bound on the rounds of a loop counts the tokens, and these are as many before either end. -/
theorem bounded {p : Nat → Parser α} (h : ∀ n, Closes e short (p n)) : Closes e short (Parser.bounded p) := by
  intro front
  refine (h (front.length + 2) front).congr ?_ ?_ <;> rw [Parser.bounded, List.length_append] <;> rfl

/-- Passing semicolons may pass the one at the end too, so only the shorter guarantee holds. -/
theorem skipSemicolons : Closes e true Parser.skipSemicolons := by
  intro front
  have hdrop (last : Token) (h : front.dropWhile (·.kind = .semicolon) ≠ []) :
      Parser.skipSemicolons (front ++ [last]) =
        .ok ⟨(), [], front.dropWhile (·.kind = .semicolon) ++ [last]⟩ := by
    simp [Parser.skipSemicolons, List.dropWhile_append, h]
  -- if there are only semicolons in front, the one at the end is passed with them
  by_cases h : front.dropWhile (·.kind = .semicolon) = []
  · constructor
    · intro parsed hok
      cases hok
      refine .inr ⟨rfl, .inl ?_⟩
      simp only [List.dropWhile_append, h]
      simp [e.semicolon_kind]
    · intro failure herror
      cases herror
  · exact .of_ok _ fun last => hdrop last h

end Closes

end Parser

/-! ### Names -/

section

variable {e : Enders} {scope : Scope}

theorem closes_name : Closes e false name :=
  .expect _ (by simp)

theorem closes_refer (reference : Reference) : Closes e false (refer reference) :=
  fun front => .of_ok front fun _ => rfl

theorem closes_localType (name : String) (pos : Position) : Closes e false (scope.localType name pos) :=
  .ite (.pure _) ((closes_refer _).bind fun _ => .pure _)

/-- A name of a type, qualified or not. The dot is looked for behind the first name, where no end of
a spec is a dot. -/
theorem closes_typeName : Closes e false scope.typeName := by
  have hplain (first : Token) (t : GoType) : Closes e false
      (Parser.at? .leftBracket >>= fun b =>
        if b then failAt first.pos .instantiation >>= fun _ : Unit => pure t else pure t) :=
    (Closes.at? (by simp) (by simp)).bind fun b => .ite ((Closes.failAt _ _).bind fun _ => .pure t) (.pure t)
  refine closes_name.bind fun first => (Closes.accept (by simp) (by simp)).bind fun dot => .ite ?_ ?_
  · refine closes_name.bind fun second => ?_
    cases scope.import? first.text with
    | none => exact (Closes.failAt _ _).bind fun t => hplain first t
    | some package => exact (Closes.pure _).bind fun t => hplain first t
  · exact (closes_localType _ _).bind fun t => hplain first t

/-- A name is read without a look at what follows. -/
theorem name_of_eq {t : Token} (ht : t.kind = .identifier) (rest : List Token) :
    name (t :: rest) = .ok ⟨t, [], rest⟩ :=
  if_pos ht

/-- A list of names goes on as long as there are commas, and no end of a spec is a comma. -/
theorem closes_names : ∀ front, ClosesAt e false names front
  | [] => by
    refine .of_refuses ⟨⟨some e.semicolon.pos, .expected .name e.semicolon.shown⟩, ?_, rfl⟩
    simp [names, e.semicolon_kind, Parser.wanted]
  -- behind the last name in front there is the end, which is no comma
  | [t] => by
    by_cases ht : t.kind = .identifier
    · have hlast {last : Token} (h : last.kind ≠ .comma) : names [t, last] = .ok ⟨[t], [], [last]⟩ := by
        rw [names, if_pos ht, if_neg h]
      exact (Closes.pure [t] []).congr (hlast (e.semicolon_ne (by simp))) (hlast (e.other_ne (by simp) (by simp)))
    · exact .of_refuses ⟨_, if_neg ht, rfl⟩
  | t :: u :: front => by
    by_cases ht : t.kind = .identifier
    · by_cases hu : u.kind = .comma
      · refine .congr (q := names >>= fun more => pure (t :: more)) ((closes_names front).bind fun _ => .pure _) ?_ ?_
        all_goals
          conv_lhs => rw [loop_names.eq_round]
          exact (bind_of_ok (name_of_eq ht _)).trans (bind_of_ok (accept_of_eq hu _))
      · refine (Closes.pure [t] (u :: front)).congr ?_ ?_
        all_goals
          rw [List.cons_append, List.cons_append, names, if_pos ht, if_neg hu]
          rfl
    · exact .of_refuses ⟨_, if_neg ht, rfl⟩

end

/-! ### Parameter lists

What is needed of the reader of types is collected in `Enders.ReadsTypes`, so that the readers of lists,
bodies and signatures can be settled before it, whatever the depth is. -/

/-- What the readers around a type take it to do. Where there is nothing but a semicolon, or nothing at all, it
refuses, and a name with a semicolon behind it is read. -/
structure Enders.ReadsTypes (e : Enders) (type : Parser GoType) : Prop where
  closes : Closes e false type
  nil : Refuses type []
  semicolon : Refuses type [e.semicolon]
  name : ∀ t, t.kind = .identifier → Refuses type [t, e.semicolon] ∨
    ∃ parsed, type [t, e.semicolon] = .ok parsed ∧ parsed.rest = [e.semicolon]

section

variable {e : Enders} {scope : Scope} {type : Parser GoType}

/-- Resolving the entries reads no token. -/
theorem closes_resolve {allowDots named : Bool} (entries : List Entry) (waiting : List String) :
    Closes e false (resolve scope allowDots named entries waiting) := by
  induction entries generalizing waiting with
  | nil =>
    cases waiting with
    | nil => exact .pure _
    | cons => exact .stop fun _ => ⟨_, rfl, rfl⟩
  | cons entry entries ih =>
    cases entry with
    | lone name pos =>
      exact .ite (ih _) ((closes_localType name pos).bind fun _ => (ih _).bind fun _ => .pure _)
    | named name dots type pos => exact .ite (.failAt _ _) ((ih _).bind fun _ => .pure _)
    | unnamed dots type pos =>
      exact .ite (.failAt _ _) (.ite (.failAt _ _) ((ih _).bind fun _ => .pure _))

variable (htype : e.ReadsTypes type)

include htype

/-- Behind dots a type is wanted. -/
theorem refuses_dotted (make : Bool → GoType → Entry) : Refuses (Parser.accept .ellipsis >>= fun dots =>
    type >>= fun written => pure (make dots written)) [e.semicolon] :=
  .behind (accept_of_ne (by simp [e.nextKind_semicolon])) htype.semicolon.bind

/-- An entry of a parameter list does not begin at a semicolon. -/
theorem refuses_entry : Refuses (Entry.parse type) [e.semicolon] := by
  refine Refuses.congr ?_ (parse_readUnnamed type (by simp) _ e.nextKind_semicolon)
  exact .behind rfl (refuses_dotted htype _)

/-- One entry of a parameter list is read alike before either end. -/
theorem closes_entry : Closes e false (Entry.parse type) := by
  have hdotted (make : Bool → GoType → Entry) : Closes e false
      (Parser.accept .ellipsis >>= fun dots => type >>= fun written => pure (make dots written)) :=
    (Closes.accept (by simp) (by simp)).bind fun _ => htype.closes.bind fun _ => .pure _
  -- an entry without a name begins with its dots or its type
  have hunnamed (t : Token) (front : List Token) : ClosesAt e false (Entry.readUnnamed type) (t :: front) :=
    .here t fun pos => hdotted (.unnamed · · (pos.getD .start))
  rintro (_ | ⟨t, front⟩)
  · exact .of_refuses (refuses_entry htype)
  -- a name decides by what follows it, and if nothing does, the entry is refused
  by_cases ht : t.kind = .identifier
  · rcases front with _ | ⟨u, front⟩
    · have hread : Refuses (Entry.readBehindName type (nextKind [e.semicolon])) [t, e.semicolon] := by
        rw [e.nextKind_semicolon, Entry.readBehindName, if_neg (by simp), if_pos (by simp)]
        exact .behind (name_of_eq ht _) (refuses_dotted htype _)
      exact .of_refuses (hread.congr (parse_readBehindName type t _ ht))
    · refine (?_ : ClosesAt e false (Entry.readBehindName type (some u.kind)) (t :: u :: front)).congr
        (parse_readBehindName type t _ ht) (parse_readBehindName type t _ ht)
      exact .ite (fun _ => closes_name.bind (fun _ => .pure _) _) fun _ =>
        .ite (fun _ => closes_name.bind (fun _ => hdotted _) _) fun _ => hunnamed t _
  · exact (hunnamed t front).congr (parse_readUnnamed type ht _ rfl) (parse_readUnnamed type ht _ rfl)

/-- The entries are read to their closing parenthesis or not at all. -/
theorem closes_entries (n : Nat) : Closes e false (Entry.parseAll type n) := by
  induction n with
  | zero => exact .stop fun _ => .wanted _
  | succ n ih =>
    have hothers (first : Entry) :
        Closes e false (Entry.parseAll type n >>= fun others => pure (first :: others)) :=
      ih.bind fun _ => .pure _
    -- behind an entry a comma is wanted, or a parenthesis, which is not the one at the end
    have hcloses (first : Entry) : Closes e false (Parser.at? .rightParen >>= fun closes =>
        if closes then Entry.parseAll type n >>= fun others => pure (first :: others)
        else wanted .commaOrParen >>= fun _ : Unit => Entry.parseAll type n >>= fun others =>
          pure (first :: others)) := by
      rintro (_ | ⟨t, front⟩)
      · refine .of_refuses (.behind (at?_eq _ _) ?_)
        rw [List.nil_append, e.nextKind_semicolon]
        exact (Refuses.wanted _).bind
      · refine (ClosesAt.of_ok (t :: front) fun _ => rfl).bind fun closes => .ite (hothers _) ?_
        exact .stop fun _ => (Refuses.wanted _).bind
    have hentry : Closes e false (Entry.parse type >>= fun first => Parser.accept .comma >>= fun comma =>
        if comma then Entry.parseAll type n >>= fun others => pure (first :: others)
        else Parser.at? .rightParen >>= fun closes =>
          if closes then Entry.parseAll type n >>= fun others => pure (first :: others)
          else wanted .commaOrParen >>= fun _ : Unit => Entry.parseAll type n >>= fun others =>
            pure (first :: others)) :=
      (closes_entry htype).bind fun first => (Closes.accept (by simp) (by simp)).bind fun comma =>
        .ite (hothers _) (hcloses _)
    rintro (_ | ⟨t, front⟩)
    · refine .of_refuses (.behind (accept_of_ne (by simp [e.nextKind_semicolon])) ?_)
      exact (refuses_entry htype).bind
    · by_cases ht : t.kind = .rightParen
      · exact (Closes.pure [] front).cons fun rest => bind_of_ok (accept_of_eq ht rest)
      · have hother (rest : List Token) : nextKind (t :: rest) ≠ some .rightParen := by simpa [nextKind] using ht
        exact (hentry (t :: front)).congr (bind_of_ok (accept_of_ne (hother _)))
          (bind_of_ok (accept_of_ne (hother _)))

theorem closes_parameters (allowDots : Bool) : Closes e false (parameters scope type allowDots) :=
  (Closes.expect _ (by simp)).bind fun _ => (Closes.bounded (closes_entries htype)).bind fun entries =>
    closes_resolve entries []

/-- The results of a signature are optional, and no end of a spec begins one. -/
theorem closes_signature : Closes e false (signature scope type) := by
  refine (closes_parameters htype true).bind fun list => (Closes.at? (by simp) (by simp)).bind fun paren => ?_
  have hbehind (next : Option Kind) : Closes e false
      (if paren then parameters scope type false >>= fun results => pure results.params >>= fun results =>
          (pure ⟨list.params, results, list.variadic⟩ : Parser Signature)
        else if next.any startsResult then type >>= fun result => pure [⟨"", result⟩] >>= fun results =>
          (pure ⟨list.params, results, list.variadic⟩ : Parser Signature)
        else pure [] >>= fun results => (pure ⟨list.params, results, list.variadic⟩ : Parser Signature)) := by
    refine .ite ?_ (.ite ?_ ?_)
    · exact (closes_parameters htype false).bind fun results => (Closes.pure _).bind fun _ => .pure _
    · exact htype.closes.bind fun result => (Closes.pure _).bind fun _ => .pure _
    · exact (Closes.pure _).bind fun _ => .pure _
  -- with no token in front there is no result, since neither end begins one
  rintro (_ | ⟨t, front⟩)
  · have hnone {t : Token} (ht : t.kind = .semicolon ∨ t.kind = .rightParen) :
        (some t.kind).any startsResult = false := by
      rcases ht with ht | ht <;> simp [ht, startsResult]
    refine (hbehind none []).congr (peek_cons.trans ?_) (peek_cons.trans ?_)
    · rw [hnone (.inl e.semicolon_kind)]
      rfl
    · rw [hnone e.other_kind]
      rfl
  · exact (hbehind (some t.kind) (t :: front)).congr peek_cons peek_cons

end

/-! ### Bodies -/

/-- A body is closed by a brace, and neither of the two is one. -/
theorem closes_braced {e : Enders} {α : Type} {item : Parser α} (hitem : Closes e true item)
    (hnil : Refuses item []) (hlast : Refuses item [e.semicolon]) (n : Nat) :
    Closes e false (braced item n) ∧ Refuses (braced item n) [] := by
  have hbrace : nextKind [e.semicolon] ≠ some .rightBrace := by simp [e.nextKind_semicolon]
  induction n with
  | zero => exact ⟨.stop fun _ => .wanted _, .wanted _⟩
  | succ n ih =>
    obtain ⟨hmore, hmoreNil⟩ := ih
    have hothers (first : α) : Closes e false (braced item n >>= fun others => pure (first :: others)) :=
      hmore.bind fun _ => .pure _
    -- the semicolon behind an item may be the one at the end, but then nothing is left to read
    have hlastEnded (first : α) : Refuses (expect .semicolon .semicolonOrBrace >>= fun _ =>
        braced item n >>= fun others => pure (first :: others)) [e.semicolon] := by
      have hread : expect .semicolon .semicolonOrBrace [e.semicolon] = .ok ⟨e.semicolon, [], []⟩ :=
        if_pos e.semicolon_kind
      exact .behind hread hmoreNil.bind
    have hended (first : α) : Closes e false (expect .semicolon .semicolonOrBrace >>= fun _ =>
        braced item n >>= fun others => pure (first :: others)) := by
      rintro (_ | ⟨t, front⟩)
      · exact .of_refuses (hlastEnded first)
      · by_cases ht : t.kind = .semicolon
        · exact (hothers first front).cons fun rest => bind_of_ok (if_pos ht)
        · exact .of_refuses (Refuses.expect _ (by simpa [nextKind] using ht)).bind
    have hlastBehind (first : α) : Refuses (at? .rightBrace >>= fun closes =>
        if closes then braced item n >>= fun others => pure (first :: others)
        else expect .semicolon .semicolonOrBrace >>= fun _ => braced item n >>= fun others =>
          pure (first :: others)) [e.semicolon] := by
      refine .behind (at?_eq _ _) ?_
      rw [e.nextKind_semicolon]
      exact hlastEnded first
    -- one item, behind the semicolons in front of it
    have hitems : Closes e false (accept .rightBrace >>= fun closed =>
        if closed then pure [] else item >>= fun first => at? .rightBrace >>= fun closes =>
          if closes then braced item n >>= fun others => pure (first :: others)
          else expect .semicolon .semicolonOrBrace >>= fun _ => braced item n >>= fun others =>
            pure (first :: others)) :=
      (Closes.accept (by simp) (by simp)).bind fun closed => .ite (.pure _) fun front =>
        (hitem front).seq (fun first => (Closes.at? (by simp) (by simp)).bind fun closes =>
          .ite (hothers first) (hended first)) (fun first => ⟨_, rfl, rfl⟩) hlastBehind
    -- what the semicolons leave may be the end or nothing, and both are refused
    refine ⟨fun front => (Closes.skipSemicolons front).seq (fun _ => hitems) (fun _ => ?_) fun _ => ?_, ?_⟩
    · exact .behind rfl hnil.bind
    · exact .behind (accept_of_ne hbrace) hlast.bind
    · exact .behind rfl (.behind rfl hnil.bind)

section

variable {e : Enders} {scope : Scope} {type : Parser GoType}

/-- A tag is optional, and no end of a spec is a string. -/
theorem closes_tag : Closes e false tag :=
  .optional (P := (· = .string)) (by simp) (by simp) (fun _ _ ht => if_pos ht) fun _ _ ht => if_neg ht

variable (htype : e.ReadsTypes type)

include htype

/-- The fields of a struct. Their semicolons may take the one at the end with them. -/
theorem closes_fields : Closes e true (fields type) := by
  have hembedded : Closes e false (embeddedField type) :=
    htype.closes.bind fun _ => closes_tag.bind fun _ => .pure _
  have hnamed : Closes e false (namedFields type) :=
    Closes.bind closes_names fun _ => htype.closes.bind fun _ => closes_tag.bind fun _ => .pure _
  rintro (_ | ⟨t, front⟩)
  · refine .of_refuses (.behind rfl ?_)
    simp only [List.nil_append, List.getElem?_cons_zero, Option.map_some, e.semicolon_kind]
    exact .wanted _
  -- a star, a name and anything else begin different fields
  · by_cases hstar : t.kind = .star
    · have hread (rest : List Token) : fields type (t :: rest) = embeddedField type (t :: rest) := by
        rw [fields, peek_cons, hstar]
      exact ((hembedded (t :: front)).congr (hread _) (hread _)).weaken
    by_cases ht : t.kind = .identifier
    · have hread (rest : List Token) : fields type (t :: rest) =
          (if (nextKind rest).any endsEmbedded then embeddedField type else namedFields type) (t :: rest) := by
        rw [fields, peek_cons, ht]
        exact EchoesAt.peek_one_cons _ t rest
      rcases front with _ | ⟨u, front⟩
      · -- with a semicolon behind it, the name is that of an embedded field
        have hone : fields type [t, e.semicolon] = embeddedField type [t, e.semicolon] := by
          rw [hread]
          simp [nextKind, e.semicolon_kind, endsEmbedded]
        rcases htype.name t ht with hrefuses | ⟨parsed, hparsed, hrest⟩
        · exact .of_refuses (hrefuses.bind.congr hone)
        · have htag : (tag >>= fun tag => pure [⟨none, parsed.value, tag⟩] : Parser (List Field)) parsed.rest =
              .ok ⟨[⟨none, parsed.value, none⟩], [], [e.semicolon]⟩ := by
            rw [hrest]
            exact bind_of_ok (if_neg (by simp [e.semicolon_kind]))
          exact .of_short (hone.trans (bind_eq_ok.2 ⟨parsed, _, hparsed, htag, rfl⟩)) rfl
      · have hboth (last : Token) : fields type (t :: u :: front ++ [last]) =
            (if endsEmbedded u.kind then embeddedField type else namedFields type) (t :: u :: front ++ [last]) :=
          hread _
        exact (ClosesAt.ite (fun _ => hembedded _) fun _ => hnamed _).weaken.congr (hboth _) (hboth _)
    · have hread (rest : List Token) : fields type (t :: rest) = Parser.wanted .field (t :: rest) := by
        rw [fields, peek_cons]
        cases hkind : t.kind with
        | star => exact absurd hkind hstar
        | identifier => exact absurd hkind ht
        | _ => rfl
      exact .of_refuses ((Refuses.wanted .field).congr (hread _))

/-- The body of a struct ends with a brace, which takes back what its fields may have passed. -/
theorem closes_structBody : Closes e false (structBody type) := by
  refine (Closes.expect _ (by simp)).bind fun _ => (Closes.bounded fun n => ?_).bind fun _ => .pure _
  refine (closes_braced (closes_fields htype) ⟨_, rfl, rfl⟩ (.behind rfl ?_) n).1
  simp only [List.getElem?_cons_zero, Option.map_some, e.semicolon_kind]
  exact .wanted _

theorem refuses_embeddedElement : Refuses (embeddedElement type) [] ∧
    Refuses (embeddedElement type) [e.semicolon] :=
  ⟨.behind rfl htype.nil.bind, .behind rfl htype.semicolon.bind⟩

/-- No element of an interface begins at the end of the tokens or at a semicolon. -/
theorem refuses_element : Refuses (element scope type) [] ∧ Refuses (element scope type) [e.semicolon] := by
  rw [element_eq]
  refine ⟨.behind rfl (.behind rfl (refuses_embeddedElement htype).1), .behind rfl (.behind rfl ?_)⟩
  simp only [List.getElem?_cons_zero, Option.map_some, e.semicolon_kind]
  exact (refuses_embeddedElement htype).2

/-- One element of an interface, a method or an embedded type. -/
theorem closes_element : Closes e false (element scope type) := by
  have hembedded (t : Token) (front : List Token) : ClosesAt e false (embeddedElement type) (t :: front) :=
    .here t fun pos => htype.closes.bind fun _ => (Closes.at? (by simp) (by simp)).bind fun _ =>
      .ite ((Closes.failAt _ _).bind fun _ => .pure _) (.pure _)
  -- what an element is depends on its first token, and behind a name on the next one
  have hread (t : Token) (rest : List Token) : element scope type (t :: rest) =
      (if t.kind = .identifier then elementBehindName scope type (nextKind rest)
        else if t.kind = .tilde then fail .constraint else embeddedElement type) (t :: rest) := by
    rw [element_eq, peek_cons, EchoesAt.peek_one_cons]
    simp only [Option.some.injEq]
  rintro (_ | ⟨t, front⟩)
  · exact .of_refuses (refuses_element htype).2
  by_cases ht : t.kind = .identifier
  · have hname (next : Option Kind) (rest : List Token) (h : nextKind rest = next) :
        element scope type (t :: rest) = elementBehindName scope type next (t :: rest) := by
      rw [hread, if_pos ht, h]
    rcases front with _ | ⟨u, front⟩
    · -- behind the name there is no parenthesis that opens a parameter list
      have hother {last : Token} (h : last.kind ≠ .leftParen) :
          element scope type [t, last] = embeddedElement type [t, last] := by
        rw [hname _ _ rfl, elementBehindName, if_neg (by simpa [nextKind] using h)]
      exact (hembedded t []).congr (hother (e.semicolon_ne (by simp))) (hother (e.other_ne (by simp) (by simp)))
    · have hmethod : ClosesAt e false (elementBehindName scope type (some u.kind)) (t :: u :: front) :=
        .ite (fun _ => closes_name.bind (fun _ => (closes_signature htype).bind fun _ => .pure _) _)
          fun _ => hembedded t _
      exact hmethod.congr (hname (some u.kind) _ rfl) (hname (some u.kind) _ rfl)
  by_cases htilde : t.kind = .tilde
  · have hfail (rest : List Token) : element scope type (t :: rest) = .error ⟨some t.pos, .constraint⟩ := by
      rw [hread, if_neg ht, if_pos htilde]
      rfl
    exact .of_error fun _ => hfail _
  · have hother (rest : List Token) : element scope type (t :: rest) = embeddedElement type (t :: rest) := by
      rw [hread, if_neg ht, if_neg htilde]
    exact (hembedded t front).congr (hother _) (hother _)

/-- The body of an interface is read to its brace or not at all. -/
theorem closes_interfaceBody : Closes e false (interfaceBody scope type) := by
  refine (Closes.expect _ (by simp)).bind fun _ => (Closes.bounded fun n => ?_).bind fun _ => .pure _
  exact (closes_braced (fun front => (closes_element htype front).weaken) (refuses_element htype).1
    (refuses_element htype).2 n).1

end

/-! ### Types -/

section

variable {e : Enders} {scope : Scope}

/-- An array length is the tokens up to its bracket, and no end of a spec is one. -/
theorem closes_arrayLength : Closes e false arrayLength := by
  intro front
  cases hlength : lengthTokens 0 (front ++ [e.semicolon]) with
  | none => exact .of_refuses ⟨⟨none, .unexpectedEndInLength⟩, by rw [arrayLength, hlength], rfl⟩
  | some found =>
    obtain ⟨inside, rest⟩ := found
    obtain ⟨bracket, hbracket, hsplit, hagain⟩ := lengthTokens_again hlength
    -- the bracket that ends the length is not the token at the end
    obtain ⟨more, rfl⟩ : ∃ more, rest = more ++ [e.semicolon] := by
      rcases List.eq_nil_or_concat rest with rfl | ⟨more, last, rfl⟩
      · obtain ⟨-, hlast⟩ := List.append_inj' hsplit rfl
        rw [← (List.cons_eq_cons.1 hlast).1, e.semicolon_kind] at hbracket
        cases hbracket
      · rw [List.concat_eq_append, ← List.cons_append, ← List.append_assoc] at hsplit
        obtain ⟨-, hlast⟩ := List.append_inj' hsplit rfl
        exact ⟨more, by rw [List.concat_eq_append, (List.cons_eq_cons.1 hlast).1]⟩
    obtain rfl : front = inside ++ bracket :: more := by
      rw [← List.cons_append, ← List.append_assoc] at hsplit
      exact List.append_cancel_right hsplit
    have hread (last : Token) := arrayLength_of_found (hagain (more ++ [last]))
    simp only [← List.cons_append, ← List.append_assoc] at hread
    by_cases htext : String.join (inside.map Token.text) = "" ∨ String.join (inside.map Token.text) = "..."
    · exact .of_refuses ⟨_, (hread _).trans (if_pos htext), rfl⟩
    · exact .of_ok more fun last => (hread last).trans (if_neg htext)

/-- A single name is a type on its own, whatever stands behind it. -/
theorem typeName_single {t : Token} (ht : t.kind = .identifier) :
    ∃ parsed, scope.typeName [t, e.semicolon] = .ok parsed ∧ parsed.rest = [e.semicolon] := by
  -- behind the name there is no bracket, so the type is no instantiation
  have hplain (type : GoType) : (Parser.at? .leftBracket >>= fun b =>
      if b then failAt t.pos .instantiation >>= fun _ : Unit => pure type else pure type) [e.semicolon] =
        .ok ⟨type, [], [e.semicolon]⟩ := by
    refine (bind_of_ok (at?_eq _ _)).trans ?_
    rw [e.nextKind_semicolon]
    rfl
  obtain ⟨type, references, hlocal⟩ : ∃ type references, ∀ tokens,
      scope.localType t.text t.pos tokens = .ok ⟨type, references, tokens⟩ := by
    unfold Scope.localType
    split
    exacts [⟨.basic _, [], fun _ => rfl⟩, ⟨.named _ _, [⟨_, _⟩], fun _ => rfl⟩]
  rw [Scope.typeName, bind_of_ok (name_of_eq ht _), bind_of_ok (accept_of_ne (by simp [e.nextKind_semicolon]))]
  exact ⟨_, bind_eq_ok.2 ⟨_, _, hlocal _, hplain type, rfl⟩, rfl⟩

/-- **Types are read alike** in front of a semicolon and in front of a closing parenthesis. -/
theorem readsTypes_typeWithin (n : Nat) : e.ReadsTypes (typeWithin scope n) := by
  induction n with
  | zero => exact ⟨.stop fun _ => .wanted _, .wanted _, .wanted _, fun _ _ => .inl (.wanted _)⟩
  | succ n ih =>
    -- what wraps one type around another is read like the inner type
    have hone (wrap : GoType → GoType) :
        Closes e false (typeWithin scope n >>= fun t => pure (wrap t)) :=
      ih.closes.bind fun _ => .pure _
    have hsemicolon : Refuses (typeWithin scope (n + 1)) [e.semicolon] := by
      rw [Refuses, typeWithin, peek_cons, e.semicolon_kind]
      exact ⟨_, rfl, rfl⟩
    refine ⟨?_, ⟨_, rfl, rfl⟩, hsemicolon, fun t ht => .inr ?_⟩
    · rintro (_ | ⟨t, front⟩)
      · exact .of_refuses hsemicolon
      -- the first token decides, and one case follows per kind of type
      refine .peek t ?_
      generalize some t.kind = next
      split
      next => exact closes_typeName _
      next => exact .skip t (hone .pointer)
      next =>
        refine .skip t ((Closes.accept (by simp) (by simp)).bind fun _ => .ite (hone .slice) ?_)
        exact closes_arrayLength.bind fun length => hone (.array length)
      next =>
        refine .skip t ((Closes.expect _ (by simp)).bind fun _ => ih.closes.bind fun key => ?_)
        exact (Closes.expect _ (by simp)).bind fun _ => hone (.map key)
      next => exact .skip t ((Closes.accept (by simp) (by simp)).bind fun _ => hone _)
      next => exact .skip t ((Closes.expect _ (by simp)).bind fun _ => hone (.chan .receive))
      next => exact .skip t ((closes_signature ih).bind fun _ => .pure _)
      next => exact .skip t ((closes_interfaceBody ih).bind fun _ => .pure _)
      next => exact .skip t ((closes_structBody ih).bind fun _ => .pure _)
      next =>
        refine .skip t (ih.closes.bind fun inner => ?_)
        exact (Closes.expect _ (by simp)).bind fun _ => .pure _
      next => exact .of_refuses (.wanted _)
    · rw [typeWithin, peek_cons, ht]
      exact typeName_single ht

/-- **A type definition is read alike before a semicolon and before a closing parenthesis.** -/
theorem closes_typeDefinition : Closes e false (typeDefinition scope) := by
  have htype : Closes e false (typeExpr scope) := .bounded fun n => (readsTypes_typeWithin n).closes
  exact (Closes.accept (by simp) (by simp)).bind fun _ => htype.bind fun _ => .pure _

end

/-! ### Specs

The spec of a type is read in front of its end, and so it is taken from where it stands: the last one of a
group, or one with a semicolon behind it. What is skipped ends at either token, since its delimiters are
closed in front of it. -/

section

variable {e : Enders} {scope : Scope} {spec : List Token} {semicolon t : Token}

/-- A semicolon at the end is not skipped, since the delimiters in front of it are closed. -/
theorem exists_left_of_nest {front body rest : List Token} (hsemicolon : semicolon.kind = .semicolon)
    (hsplit : front ++ [semicolon] = body ++ rest) (hbody : nest 0 (body.map Token.kind) = some 0) :
    ∃ more, front = body ++ more ∧ rest = more ++ [semicolon] := by
  rcases List.eq_nil_or_concat rest with rfl | ⟨more, last, rfl⟩
  · rw [List.append_nil] at hsplit
    rw [← hsplit, List.map_append, nest_append, Option.bind_eq_some_iff] at hbody
    obtain ⟨depth, -, hlast⟩ := hbody
    cases depth <;> simp [nest, hsemicolon, Kind.isOpening, Kind.isClosing] at hlast
  · rw [List.concat_eq_append, ← List.append_assoc] at hsplit
    obtain ⟨hfront, hlast⟩ := List.append_inj' hsplit rfl
    exact ⟨more, hfront, by rw [List.concat_eq_append, (List.cons_eq_cons.1 hlast).1]⟩

/-- What ends a declaration begins with the same token when more stands behind it. -/
theorem ends_of_append {more : List Token} (h : EndsDeclaration (nextKind (more ++ [semicolon])))
    (ht : t.kind = .semicolon ∨ t.kind = .rightParen) (rest : List Token) :
    EndsDeclaration (nextKind (more ++ t :: rest)) := by
  cases more with
  | nil =>
    rintro kind ⟨⟩
    exact ht.imp id fun ht => by rw [ht]; rfl
  | cons u more => exact h

/-- Skipping to the end of a spec stops at either end. -/
theorem closes_skipToEnd : Closes e false skipToEnd := by
  intro front
  cases hskip : skipNested 0 (front ++ [e.semicolon]) with
  | error failure => exact .of_refuses ⟨failure, by rw [skipToEnd, hskip]; rfl, skipNested_fails hskip⟩
  | ok rest =>
    obtain ⟨body, hsplit, hbody, hends⟩ := skipNested_eq_ok_iff.1 hskip
    obtain ⟨more, rfl, rfl⟩ := exists_left_of_nest e.semicolon_kind hsplit hbody
    have hread {last : Token} (h : last.kind = .semicolon ∨ last.kind = .rightParen) :
        skipToEnd (body ++ more ++ [last]) = .ok ⟨(), [], more ++ [last]⟩ := by
      refine skipToEnd_eq_ok_iff.2 ⟨_, skipNested_eq_ok_iff.2 ⟨body, ?_, hbody, ends_of_append hends h []⟩, rfl⟩
      rw [List.append_assoc]
    exact (Closes.pure () more).congr (hread (.inl e.semicolon_kind)) (hread e.other_kind)

theorem closes_valueHead (kind : ObjectKind) : Closes e false (valueHead kind) :=
  Closes.bind closes_names fun _ => closes_skipToEnd.bind fun _ => .pure _

theorem closes_importAlias : Closes e false importAlias :=
  .optional (P := fun kind => kind = .identifier ∨ kind = .dot) (by simp) (by simp) (fun _ _ ht => if_pos ht)
    fun _ _ ht => if_neg ht

theorem closes_importHead : Closes e false importHead :=
  closes_importAlias.bind fun _ => (Closes.expect _ (by simp)).bind fun _ =>
    .ite ((Closes.failAt _ _).bind fun _ => .pure _) (.pure _)

/-- What has been read up to a semicolon at the end is read wherever it stands, up to a semicolon or a closing
parenthesis. -/
theorem reads_ended {α : Type} {p : Parser α} (hagain : p.Again) (hcloses : ∀ e, Closes e false p)
    (hsemicolon : semicolon.kind = .semicolon) {first : Parsed α} (h : p (spec ++ [semicolon]) = .ok first)
    (hrest : first.rest.length ≤ 1) (ht : t.kind = .semicolon ∨ t.kind = .rightParen)
    (rest : List Token) : p (spec ++ t :: rest) = .ok { first with rest := t :: rest } := by
  obtain ⟨more, hmore, hread⟩ | ⟨⟨⟩, -⟩ := (hcloses ⟨semicolon, t, hsemicolon, ht⟩ spec).reads h
  dsimp only at hmore hread
  obtain rfl : more = [] := by simpa [hmore] using hrest
  obtain ⟨front, hsplit, hall⟩ := hagain _ _ hread
  obtain rfl : spec = front := List.append_cancel_right hsplit
  exact hall (t :: rest) rfl

/-- Whether a declared type is generic does not depend on what ends its declaration. -/
theorem isGeneric_ended (hsemicolon : semicolon.kind = .semicolon)
    (ht : t.kind = .semicolon ∨ t.kind = .rightParen) (rest : List Token) :
    isGeneric (spec ++ t :: rest) = isGeneric (spec ++ [semicolon]) := by
  have hplain : t.kind ≠ .leftBracket ∧ t.kind ≠ .identifier := by
    rcases ht with ht | ht <;> simp [ht]
  match spec with
  | [] => cases rest <;> simp [isGeneric, hplain]
  | [u] => simp [isGeneric, hplain, hsemicolon]
  | [u, v] =>
    change (_ && _ && some t.kind != _) = (_ && _ && some semicolon.kind != _)
    rcases ht with ht | ht
    · rw [ht, hsemicolon]
    · rw [ht, hsemicolon]
      rfl
  | _ :: _ :: _ :: _ => rfl

/-- **What a name declares is read in front of whatever ends its spec**, and also if it cannot be described. -/
theorem typeKind_ended {parsed : Parsed ObjectKind} (hsemicolon : semicolon.kind = .semicolon)
    (h : typeKind scope (spec ++ [semicolon]) = .ok parsed)
    (hrest : parsed.rest.length ≤ 1) (ht : t.kind = .semicolon ∨ t.kind = .rightParen)
    (rest : List Token) : typeKind scope (spec ++ t :: rest) = .ok { parsed with rest := t :: rest } := by
  have hechoes : Echoes false (fun n : Nat => n) 0 0 (typeDefinition scope) fun _ =>
      typeDefinition scope := echoes_typeDefinition false 0
  refine typeKind_eq_ok_iff.2 ?_
  rw [isGeneric_ended hsemicolon ht]
  rcases typeKind_eq_ok_iff.1 h with ⟨hgeneric, hread⟩ | ⟨reason, behind, hskip, rfl, hreason⟩
  · refine .inl ⟨hgeneric, ?_⟩
    exact reads_ended (.of_echoes hechoes) (fun _ => closes_typeDefinition) hsemicolon hread hrest ht rest
  · obtain ⟨body, hsplit, hbody, hends⟩ := skipNested_eq_ok_iff.1 hskip
    obtain ⟨more, rfl, rfl⟩ := exists_left_of_nest hsemicolon hsplit hbody
    obtain rfl : more = [] := by simpa using hrest
    rw [List.append_nil] at hreason ⊢
    refine .inr ⟨reason, t :: rest, skipNested_eq_ok_iff.2 ⟨body, rfl, hbody, ends_of_append hends ht rest⟩, rfl, ?_⟩
    refine hreason.imp id fun ⟨hgeneric, failure, herror, hcause, hmessage⟩ =>
      ⟨hgeneric, failure, ?_, hcause, hmessage⟩
    -- the attempt is given up behind tokens of the spec, or at what ends it
    have hother : typeDefinition scope (body ++ [t]) = .error failure :=
      (closes_typeDefinition (e := ⟨semicolon, t, hsemicolon, ht⟩) body).fails herror hcause
    obtain ⟨front, left, hfront, -, -, -, hagain⟩ := (hechoes _).fails rfl hother hcause
    have hall := hagain _ (Nat.lt_succ_self _) (left ++ rest)
    rwa [← List.append_assoc, ← hfront, List.append_assoc] at hall

/-- The spec of a type that was read up to its semicolon is read up to either end. -/
theorem declaredType_ended {parsed : Parsed Declaration} (hsemicolon : semicolon.kind = .semicolon)
    (h : declaredType scope (spec ++ [semicolon]) = .ok parsed)
    (hrest : parsed.rest.length ≤ 1) (ht : t.kind = .semicolon ∨ t.kind = .rightParen)
    (rest : List Token) : declaredType scope (spec ++ t :: rest) = .ok { parsed with rest := t :: rest } := by
  obtain ⟨declared, behind, kind, hsplit, hdeclared, hkind, rfl⟩ := declaredType_eq_ok_iff.1 h
  cases spec with
  | nil =>
    cases hsplit
    rw [hsemicolon] at hdeclared
    cases hdeclared
  | cons u spec =>
    cases hsplit
    exact declaredType_eq_ok_iff.2 ⟨_, _, _, rfl, hdeclared, typeKind_ended hsemicolon hkind hrest ht rest, rfl⟩

end

end Multicast.Syntax
