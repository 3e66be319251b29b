import Mathlib.Data.List.Forall2
import Multicast.Proofs.FileYields

/-!
# Only the words matter

Places of tokens are told in references and in failures, and kept with declared names, but no parser
asks about them. So from tokens with the same words a file is read alike, apart from places, or fails
for the same cause (`alike_contents`).

`Alike R p q` relates two parsers: on tokens with the same words, both read and make values that `R`
relates, or both fail. Most of the time they are one parser, run on two files; but where a value holds
a place, what goes on behind it differs.

## Where places could matter

Failures apart, places are kept in three things: references carry them, declarations keep them, and an
entry of a parameter list holds the place of its name until it is known whether it is referred to. So
values are related and not equal (`Entry.Same`, `Declaration.Same`), and what is said about two runs is
relative to a relation on their values. With equality for the relation it is what holds of most parsers.

Budgets are told from the number of tokens, which is the same in both runs.
-/

namespace Multicast.Syntax

open Source

/-! ### Two runs -/

/-- Tokens with the same words, wherever they stand. -/
def SameWords (ts us : List Token) : Prop :=
  ts.map Token.word = us.map Token.word

instance (ts us : List Token) : Decidable (SameWords ts us) :=
  inferInstanceAs (Decidable (_ = _))

/-- **Two results that differ in places only.** -/
inductive Agree {α β : Type} (R : α → β → Prop) :
    Except Failure (Parsed α) → Except Failure (Parsed β) → Prop
  | ok {x : Parsed α} {y : Parsed β} (hvalue : R x.value y.value)
    (hreferences : x.references.map Reference.name = y.references.map Reference.name)
    (hrest : SameWords x.rest y.rest) : Agree R (.ok x) (.ok y)
  | error {e e' : Failure} (h : e.cause = e'.cause) : Agree R (.error e) (.error e')

namespace SameWords

variable {ts us : List Token} {t u : Token}

theorem nil_iff (h : SameWords ts us) : ts = [] ↔ us = [] := by
  rw [← List.map_eq_nil_iff (f := Token.word), h, List.map_eq_nil_iff]

/-- Tokens have the same words if the first ones agree in kind and text, and the others have the
same words. -/
theorem cons_iff : SameWords (t :: ts) (u :: us) ↔
    t.kind = u.kind ∧ t.text = u.text ∧ SameWords ts us := by
  simp [SameWords, Token.word, and_assoc]

/-- Where one file goes on, the other does too, with a token of the same kind and text. -/
theorem exists_cons (h : SameWords (t :: ts) us) :
    ∃ u vs, us = u :: vs ∧ t.kind = u.kind ∧ t.text = u.text ∧ SameWords ts vs := by
  cases us with
  | nil => cases h
  | cons u us => exact ⟨u, us, rfl, cons_iff.1 h⟩

theorem length_eq (h : SameWords ts us) : ts.length = us.length := by
  simpa using congrArg List.length h

/-- All that a parser chooses by, the kinds of the tokens, is told by the words. -/
theorem kinds_eq (h : SameWords ts us) : ts.map Token.kind = us.map Token.kind := by
  have hkinds := congrArg (List.map Word.kind) h
  simpa [Function.comp_def, Token.word] using hkinds

theorem texts_eq (h : SameWords ts us) : ts.map Token.text = us.map Token.text := by
  have htexts := congrArg (List.map Word.text) h
  simpa [Function.comp_def, Token.word] using htexts

end SameWords

namespace Parser

variable {α β γ δ : Type} {R : α → β → Prop} {S : γ → δ → Prop}

/-- **Two parsers do alike on tokens with the same words.** -/
def Alike (R : α → β → Prop) (p : Parser α) (q : Parser β) : Prop :=
  ∀ ts us, SameWords ts us → Agree R (p ts) (q us)

namespace Alike

variable {p : Parser α} {q : Parser β} {f : α → Parser γ} {g : β → Parser δ}

/-- Values that are related are made without a look at the tokens. -/
theorem pure {x : α} {y : β} (h : R x y) : Alike R (Pure.pure x) (Pure.pure y) :=
  fun _ _ hsame => .ok h rfl hsame

/-- What goes on behind related values may differ, as long as it does alike from related values on.
-/
theorem bind (hp : Alike R p q) (hf : ∀ x y, R x y → Alike S (f x) (g y)) :
    Alike S (p >>= f) (q >>= g) := by
  intro ts us hsame
  change Agree S ((p >>= f).run ts) ((q >>= g).run us)
  rw [run_bind, run_bind]
  simp only [run]
  -- the two first results are taken for what they are, so that they can differ in form together
  have hfirst := hp ts us hsame
  revert hfirst
  generalize p ts = first
  generalize q us = first'
  rintro (⟨hvalue, hreferences, hrest⟩ | h)
  · have hsecond := hf _ _ hvalue _ _ hrest
    dsimp only
    revert hsecond
    generalize f _ _ = second
    generalize g _ _ = second'
    rintro (⟨hvalue', hreferences', hrest'⟩ | h)
    · exact .ok hvalue' (by simp [hreferences, hreferences']) hrest'
    · exact .error h
  · exact .error h

/-- What is read behind one parser, with the same value in both files. -/
theorem before {p q : Parser α} {f : α → Parser γ} {g : α → Parser δ} (hp : Alike Eq p q)
    (hf : ∀ x, Alike S (f x) (g x)) : Alike S (p >>= f) (q >>= g) :=
  hp.bind fun x _ h => h ▸ hf x

theorem fail (cause : Cause) : Alike R (Parser.fail cause) (Parser.fail cause) :=
  fun _ _ _ => Agree.error rfl

/-- The place of a failure is not compared, only its cause. -/
theorem failAt (pos pos' : Option Position) (cause : Cause) :
    Alike R (Parser.failAt pos cause) (Parser.failAt pos' cause) :=
  fun _ _ _ => Agree.error rfl

/-- What is found in place of what is wanted is told by the kind and the text of the token. -/
theorem wanted (what : Wanted) : Alike R (Parser.wanted what) (Parser.wanted what) := by
  intro ts us hsame
  refine Agree.error ?_
  cases ts with
  | nil =>
    obtain rfl := hsame.nil_iff.1 rfl
    rfl
  | cons t ts =>
    cases us with
    | nil => cases hsame
    | cons u us =>
      obtain ⟨hkind, htext, -⟩ := SameWords.cons_iff.1 hsame
      simp [Token.shown, hkind, htext]

/-- Parsers that look at the first token on their own. -/
theorem byHead {p : Parser α} {q : Parser β} (hnil : Agree R (p []) (q []))
    (hcons : ∀ t u ts us, t.kind = u.kind → t.text = u.text → SameWords ts us →
      Agree R (p (t :: ts)) (q (u :: us))) : Alike R p q := by
  intro ts us hsame
  cases ts with
  | nil =>
    obtain rfl := hsame.nil_iff.1 rfl
    exact hnil
  | cons t ts =>
    cases us with
    | nil => cases hsame
    | cons u us =>
      obtain ⟨hkind, htext, hrest⟩ := SameWords.cons_iff.1 hsame
      exact hcons t u ts us hkind htext hrest

/-- Looking ahead finds the same kind. -/
theorem peek (n : Nat) : Alike Eq (Parser.peek n) (Parser.peek n) := by
  intro ts us hsame
  refine .ok ?_ rfl hsame
  have hkind := congrArg (·[n]?) hsame.kinds_eq
  simpa using hkind

theorem at? (kind : Kind) : Alike Eq (Parser.at? kind) (Parser.at? kind) :=
  (peek 0).before fun _ => .pure rfl

/-- The same number of tokens is left out. -/
theorem skip : Alike Eq Parser.skip Parser.skip := by
  intro ts us hsame
  refine .ok rfl rfl ?_
  have htail := congrArg List.tail hsame
  simpa [SameWords] using htail

/-- Places are the one thing about which two files may answer differently. -/
theorem here : Alike (fun _ _ => True) Parser.here Parser.here :=
  fun _ _ hsame => .ok trivial rfl hsame

/-- A token is accepted in one file if it is in the other. -/
theorem accept (kind : Kind) : Alike Eq (Parser.accept kind) (Parser.accept kind) := by
  refine (at? kind).before fun found => ?_
  split
  · exact skip.before fun _ => .pure rfl
  · exact .pure rfl

/-- A token that is expected is found in both files or in neither. The two have one text, and each
has its own place. -/
theorem expect (kind : Kind) (what : Wanted) :
    Alike (fun t u => t.text = u.text) (Parser.expect kind what) (Parser.expect kind what) := by
  refine byHead (.error rfl) fun t u ts us hkind htext hsame => ?_
  rw [Parser.expect, Parser.expect, hkind]
  split
  · exact .ok htext rfl hsame
  · exact wanted what _ _ (SameWords.cons_iff.2 ⟨hkind, htext, hsame⟩)

/-- The same semicolons are skipped. -/
theorem skipSemicolons : Alike Eq Parser.skipSemicolons Parser.skipSemicolons := by
  intro ts us hsame
  refine .ok rfl rfl ?_
  induction ts generalizing us with
  | nil =>
    obtain rfl := hsame.nil_iff.1 rfl
    rfl
  | cons t ts ih =>
    cases us with
    | nil => cases hsame
    | cons u us =>
      obtain ⟨hkind, -, hrest⟩ := SameWords.cons_iff.1 hsame
      have hdrop : decide (t.kind = .semicolon) = decide (u.kind = .semicolon) := by rw [hkind]
      simp only [List.dropWhile_cons, hdrop]
      split
      · exact ih us hrest
      · exact hsame

/-- A reference is reported by name, and the place in it is not compared. -/
theorem refer (name : String) (pos pos' : Position) :
    Alike Eq (Parser.refer ⟨name, pos⟩) (Parser.refer ⟨name, pos'⟩) :=
  fun _ _ hsame => .ok rfl rfl hsame

/-- Files with the same words have the same number of tokens, and so the same budget. -/
theorem bounded {p : Nat → Parser α} {q : Nat → Parser β} (h : ∀ n, Alike R (p n) (q n)) :
    Alike R (Parser.bounded p) (Parser.bounded q) := by
  intro ts us hsame
  rw [Parser.bounded, Parser.bounded, hsame.length_eq]
  exact h _ ts us hsame

/-- Alternatives that both parsers choose between in the same way. -/
theorem ite {c : Prop} [Decidable c] {p' : Parser α} {q' : Parser β} (hyes : Alike R p q)
    (hno : Alike R p' q') : Alike R (if c then p else p') (if c then q else q') := by
  split
  · exact hyes
  · exact hno

end Alike

end Parser

open Multicast.Syntax.Parser

/-! ### Names and lists -/

/-- The same names are listed, each at its own place. -/
theorem alike_names : Alike SameWords names names := by
  -- the reader has a case for each kind of the first two tokens, and so has the proof
  intro ts
  induction ts using names.induct with
  | case1 t comma rest ht hcomma ih =>
    intro us hsame
    obtain ⟨u, us, rfl, hu, htext, hus⟩ := hsame.exists_cons
    obtain ⟨c, us, rfl, hc, -, hus⟩ := hus.exists_cons
    rw [names, names, if_pos ht, if_pos hcomma, if_pos (hu ▸ ht), if_pos (hc ▸ hcomma)]
    have hmore := ih us hus
    revert hmore
    generalize names rest = more
    generalize names us = more'
    rintro (⟨hvalue, hreferences, hrest⟩ | herror)
    · exact .ok (SameWords.cons_iff.2 ⟨hu, htext, hvalue⟩) hreferences hrest
    · exact .error herror
  | case2 t comma rest ht hcomma =>
    intro us hsame
    obtain ⟨u, us, rfl, hu, htext, hus⟩ := hsame.exists_cons
    obtain ⟨c, us, rfl, hc, -, -⟩ := hus.exists_cons
    rw [names, names, if_pos ht, if_neg hcomma, if_pos (hu ▸ ht), if_neg (hc ▸ hcomma)]
    exact .ok (SameWords.cons_iff.2 ⟨hu, htext, rfl⟩) rfl hus
  | case3 t comma rest ht =>
    intro us hsame
    have hwanted := Alike.wanted (R := SameWords) .name _ us hsame
    obtain ⟨u, us, rfl, hu, -, hus⟩ := hsame.exists_cons
    obtain ⟨c, us, rfl, -, -, -⟩ := hus.exists_cons
    rwa [names, names, if_neg ht, if_neg (hu ▸ ht)]
  | case4 t ht =>
    intro us hsame
    obtain ⟨u, us, rfl, hu, -, hus⟩ := hsame.exists_cons
    obtain rfl := hus.nil_iff.1 rfl
    rw [names, names, if_pos ht, if_pos (hu ▸ ht)]
    exact .ok hsame rfl rfl
  | case5 t ht =>
    intro us hsame
    have hwanted := Alike.wanted (R := SameWords) .name _ us hsame
    obtain ⟨u, us, rfl, hu, -, hus⟩ := hsame.exists_cons
    obtain rfl := hus.nil_iff.1 rfl
    rwa [names, names, if_neg ht, if_neg (hu ▸ ht)]
  | case6 =>
    intro us hsame
    obtain rfl := hsame.nil_iff.1 rfl
    exact .error rfl

/-- Items between braces are read alike one by one. -/
theorem alike_braced {α : Type} {R : α → α → Prop} {item : Parser α} (h : Alike R item item) (n : Nat) :
    Alike (List.Forall₂ R) (braced item n) (braced item n) := by
  induction n with
  | zero => exact .wanted _
  | succ n ih =>
    refine Alike.skipSemicolons.before fun _ => (Alike.accept _).before fun closed => .ite ?_ ?_
    · exact .pure .nil
    · refine h.bind fun x y hxy => (Alike.at? _).before fun closes => .ite ?_ ?_
      · exact ih.bind fun xs ys hall => .pure (.cons hxy hall)
      · exact (Alike.expect _ _).bind fun _ _ _ => ih.bind fun xs ys hall => .pure (.cons hxy hall)

section

variable {scope : Scope} {type : Parser GoType}

/-- What a name means does not depend on where it stands; the reference to it does. -/
theorem alike_localType (name : String) (pos pos' : Position) :
    Alike Eq (scope.localType name pos) (scope.localType name pos') :=
  .ite (.pure rfl) ((Alike.refer _ _ _).before fun _ => .pure rfl)

/-- A type name means the same in both files. Whether an argument list behind it makes it an
instance is told by the next token alone. -/
theorem alike_typeName : Alike Eq scope.typeName scope.typeName := by
  refine (Alike.expect _ _).bind fun first first' htext => ?_
  have hplain (t : GoType) : Alike Eq
      (Parser.at? .leftBracket >>= fun b =>
        if b then failAt first.pos .instantiation >>= fun _ : Unit => pure t else pure t)
      (Parser.at? .leftBracket >>= fun b =>
        if b then failAt first'.pos .instantiation >>= fun _ : Unit => pure t else pure t) :=
    (Alike.at? _).before fun _ =>
      .ite (Alike.bind (R := Eq) (.failAt _ _ _) fun _ _ _ => .pure rfl) (.pure rfl)
  refine (Alike.accept _).before fun dotted => .ite ?_ ?_
  · refine (Alike.expect _ _).bind fun second second' htext' => ?_
    rw [htext, htext']
    split
    · exact (Alike.pure rfl).before hplain
    · exact Alike.bind (R := Eq) (.failAt _ _ _) fun _ _ h => h ▸ hplain _
  · rw [htext]
    exact (alike_localType _ _ _).before hplain

/-! ### Parameter lists -/

/-- Entries that differ in their places only. -/
inductive Entry.Same : Entry → Entry → Prop
  | lone {name : String} {pos pos' : Position} : Same (.lone name pos) (.lone name pos')
  | named {name : String} {dots : Bool} {type : GoType} {pos pos' : Position} :
    Same (.named name dots type pos) (.named name dots type pos')
  | unnamed {dots : Bool} {type : GoType} {pos pos' : Position} :
    Same (.unnamed dots type pos) (.unnamed dots type pos')

/-- An entry is read alike: its form is told by one token and the kind of the next. -/
theorem alike_entry (htype : Alike Eq type type) :
    Alike Entry.Same (Entry.parse type) (Entry.parse type) := by
  have hwritten {make make' : Bool → GoType → Entry}
      (h : ∀ dots written, (make dots written).Same (make' dots written)) :
      Alike Entry.Same
        (accept .ellipsis >>= fun dots => type >>= fun written => pure (make dots written))
        (accept .ellipsis >>= fun dots => type >>= fun written => pure (make' dots written)) :=
    (Alike.accept _).before fun dots => htype.before fun written => .pure (h dots written)
  refine .byHead (.error rfl) fun t u ts us hkind htext hsame => ?_
  have hnext : ts.head?.map Token.kind = us.head?.map Token.kind := by
    simpa using congrArg List.head? hsame.kinds_eq
  have hall : SameWords (t :: ts) (u :: us) := SameWords.cons_iff.2 ⟨hkind, htext, hsame⟩
  rw [Entry.parse, Entry.parse]
  simp only [hkind, hnext]
  -- a lone name, a name in front of a type, or a type: the same in both files
  split
  · rw [htext]
    exact .ok .lone rfl hsame
  · split
    · rw [htext]
      exact hwritten (fun _ _ => .named) ts us hsame
    · exact hwritten (fun _ _ => .unnamed) _ _ hall

/-- Entries are read alike one by one. -/
theorem alike_entries (htype : Alike Eq type type) (n : Nat) :
    Alike (List.Forall₂ Entry.Same) (Entry.parseAll type n) (Entry.parseAll type n) := by
  induction n with
  | zero => exact .wanted _
  | succ n ih =>
    have hothers {e e' : Entry} (h : e.Same e') : Alike (List.Forall₂ Entry.Same)
        (Entry.parseAll type n >>= fun others => pure (e :: others))
        (Entry.parseAll type n >>= fun others => pure (e' :: others)) :=
      ih.bind fun es es' hall => .pure (.cons h hall)
    refine (Alike.accept _).before fun closed => .ite (.pure .nil) ?_
    refine (alike_entry htype).bind fun e e' he => (Alike.accept _).before fun comma => .ite ?_ ?_
    · exact hothers he
    · refine (Alike.at? _).before fun closes => .ite (hothers he) ?_
      exact Alike.bind (R := Eq) (.wanted _) fun _ _ _ => hothers he

/-- The parameters that entries stand for do not depend on the places in the entries. -/
theorem alike_resolve {allowDots named : Bool} {es es' : List Entry} (h : List.Forall₂ Entry.Same es es')
    (waiting : List String) : Alike Eq (resolve scope allowDots named es waiting)
      (resolve scope allowDots named es' waiting) := by
  induction h generalizing waiting with
  | nil =>
    cases waiting with
    | nil => exact .pure rfl
    | cons => exact .fail _
  | cons he hall ih =>
    have hempty : ∀ {es es' : List Entry}, List.Forall₂ Entry.Same es es' →
        es.isEmpty = es'.isEmpty := by
      rintro _ _ (_ | _) <;> rfl
    cases he with
    | lone =>
      refine .ite (ih _) ?_
      exact (alike_localType _ _ _).before fun _ => (ih _).before fun _ => .pure rfl
    | named =>
      rw [resolve, resolve, hempty hall]
      refine .ite (.failAt _ _ _) ?_
      exact (ih _).before fun _ => .pure rfl
    | unnamed =>
      rw [resolve, resolve, hempty hall]
      refine .ite (.failAt _ _ _) (.ite (.failAt _ _ _) ?_)
      exact (ih _).before fun _ => .pure rfl

/-- A parameter list gives the same parameters. -/
theorem alike_parameters (htype : Alike Eq type type) (allowDots : Bool) :
    Alike Eq (parameters scope type allowDots) (parameters scope type allowDots) := by
  refine (Alike.expect _ _).bind fun _ _ _ => (Alike.bounded (alike_entries htype)).bind ?_
  intro es es' hall
  have hnamed : es.any Entry.isNamed = es'.any Entry.isNamed := by
    induction hall with
    | nil => rfl
    | cons he _ ih =>
      rw [List.any_cons, List.any_cons, ih]
      cases he <;> rfl
  rw [hnamed]
  exact alike_resolve hall []

/-- A signature is read alike, whatever form its results have. -/
theorem alike_signature (htype : Alike Eq type type) :
    Alike Eq (signature scope type) (signature scope type) := by
  refine (alike_parameters htype true).before fun list => (Alike.at? _).before fun paren => ?_
  refine (Alike.peek 0).before fun next => .ite ?_ (.ite ?_ ?_)
  · refine (alike_parameters htype false).before fun results => ?_
    exact (Alike.pure rfl).before fun _ => .pure rfl
  · exact htype.before fun _ => (Alike.pure rfl).before fun _ => .pure rfl
  · exact (Alike.pure rfl).before fun _ => .pure rfl

/-! ### Types

The two runs descend in step, so this is an induction on the budget that both have. -/

/-- An element of an interface is read alike: the token behind a name tells a method from a type. -/
theorem alike_element (htype : Alike Eq type type) :
    Alike Eq (element scope type) (element scope type) := by
  refine (Alike.peek 0).before fun next => (Alike.peek 1).before fun second => ?_
  split
  · refine (Alike.expect _ _).bind fun first first' htext => ?_
    rw [htext]
    exact (alike_signature htype).before fun _ => .pure rfl
  · exact .fail _
  · refine Alike.here.bind fun pos pos' _ => htype.before fun embedded => ?_
    refine (Alike.at? _).before fun union => .ite ?_ (.pure rfl)
    exact Alike.bind (R := Eq) (.failAt _ _ _) fun _ _ _ => .pure rfl

/-- The body of an interface has the same methods and embedded types. -/
theorem alike_interfaceBody (htype : Alike Eq type type) :
    Alike Eq (interfaceBody scope type) (interfaceBody scope type) :=
  (Alike.expect _ _).bind fun _ _ _ =>
    (Alike.bounded (alike_braced (alike_element htype))).bind fun _ _ h =>
      .pure (by rw [List.forall₂_eq_eq_eq] at h; rw [h])

/-- A tag is its text. -/
theorem alike_tag : Alike Eq tag tag := by
  refine .byHead (.ok rfl rfl rfl) fun t u ts us hkind htext hsame => ?_
  rw [tag, tag, hkind, htext]
  split
  · exact .ok rfl rfl hsame
  · exact .ok rfl rfl (SameWords.cons_iff.2 ⟨hkind, htext, hsame⟩)

/-- A line of a struct declares the same fields: places of their names are dropped on the way. -/
theorem alike_fields (htype : Alike Eq type type) : Alike Eq (fields type) (fields type) := by
  have hembedded : Alike Eq (embeddedField type) (embeddedField type) :=
    htype.before fun _ => alike_tag.before fun _ => .pure rfl
  have hnamed : Alike Eq (namedFields type) (namedFields type) := by
    refine alike_names.bind fun ts us hsame => htype.before fun shared => alike_tag.before fun tag => ?_
    refine .pure ?_
    have hmap := congrArg (List.map fun text => (⟨some text, shared, tag⟩ : Field)) hsame.texts_eq
    simpa [Function.comp_def] using hmap
  refine (Alike.peek 0).before fun next => ?_
  split
  · exact hembedded
  · exact (Alike.peek 1).before fun second => .ite hembedded hnamed
  · exact .wanted _

/-- The body of a struct has the same fields. -/
theorem alike_structBody (htype : Alike Eq type type) :
    Alike Eq (structBody type) (structBody type) :=
  (Alike.expect _ _).bind fun _ _ _ =>
    (Alike.bounded (alike_braced (alike_fields htype))).bind fun _ _ h =>
      .pure (by rw [List.forall₂_eq_eq_eq] at h; rw [h])

/-- The tokens of an array length are found alike. -/
theorem lengthTokens_alike {ts us : List Token} (h : SameWords ts us) (depth : Nat) :
    Option.Rel (fun x y => SameWords x.1 y.1 ∧ SameWords x.2 y.2) (lengthTokens depth ts)
      (lengthTokens depth us) := by
  induction ts generalizing us depth with
  | nil =>
    obtain rfl := h.nil_iff.1 rfl
    exact .none
  | cons t ts ih =>
    obtain ⟨u, us, rfl, hkind, htext, hrest⟩ := h.exists_cons
    rw [lengthTokens, lengthTokens, hkind]
    split
    · exact .some ⟨rfl, hrest⟩
    · -- what is read behind the token is alike, whatever it opens or closes
      have hcons {more more' : Option (List Token × List Token)}
          (hmore : Option.Rel (fun x y => SameWords x.1 y.1 ∧ SameWords x.2 y.2) more more') :
          Option.Rel (fun x y => SameWords x.1 y.1 ∧ SameWords x.2 y.2)
            (more.map fun found => (t :: found.1, found.2))
            (more'.map fun found => (u :: found.1, found.2)) := by
        obtain ⟨hinside, hbehind⟩ | _ := hmore
        · exact .some ⟨SameWords.cons_iff.2 ⟨hkind, htext, hinside⟩, hbehind⟩
        · exact .none
      exact hcons (ih hrest _)

/-- An array length is the texts of its tokens in a row, so it is read alike. -/
theorem alike_arrayLength : Alike Eq arrayLength arrayLength := by
  intro ts us hsame
  have hlength := lengthTokens_alike hsame 0
  rw [arrayLength, arrayLength]
  revert hlength
  generalize lengthTokens 0 ts = length
  generalize lengthTokens 0 us = length'
  rintro (⟨hinside, hbehind⟩ | _)
  · dsimp only
    rw [hinside.texts_eq]
    split
    · exact Alike.wanted _ _ _ hbehind
    · exact .ok rfl rfl hbehind
  · exact .error rfl

/-- **Types are read alike**, however deeply they are nested. -/
theorem alike_typeWithin (n : Nat) : Alike Eq (typeWithin scope n) (typeWithin scope n) := by
  induction n with
  | zero => exact .wanted _
  | succ n ih =>
    refine (Alike.peek 0).before fun next => ?_
    split
    · exact alike_typeName
    · exact Alike.skip.before fun _ => ih.before fun _ => .pure rfl
    · refine Alike.skip.before fun _ => (Alike.accept _).before fun closed => .ite ?_ ?_
      · exact ih.before fun _ => .pure rfl
      · exact alike_arrayLength.before fun _ => ih.before fun _ => .pure rfl
    · refine Alike.skip.before fun _ => (Alike.expect _ _).bind fun _ _ _ => ih.before fun key => ?_
      exact (Alike.expect _ _).bind fun _ _ _ => ih.before fun _ => .pure rfl
    · exact Alike.skip.before fun _ => (Alike.accept _).before fun _ => ih.before fun _ => .pure rfl
    · refine Alike.skip.before fun _ => (Alike.expect _ _).bind fun _ _ _ => ?_
      exact ih.before fun _ => .pure rfl
    · exact Alike.skip.before fun _ => (alike_signature ih).before fun _ => .pure rfl
    · exact Alike.skip.before fun _ => (alike_interfaceBody ih).before fun _ => .pure rfl
    · exact Alike.skip.before fun _ => (alike_structBody ih).before fun _ => .pure rfl
    · refine Alike.skip.before fun _ => ih.before fun inner => ?_
      exact (Alike.expect _ _).bind fun _ _ _ => .pure rfl
    · exact .wanted _

/-- The budget for a type is the same in both files, so types are read alike in full. -/
theorem alike_typeExpr : Alike Eq (typeExpr scope) (typeExpr scope) :=
  .bounded alike_typeWithin

end

/-! ### Ends of declarations -/

/-- The same tokens are skipped. -/
theorem skipNested_alike {ts us : List Token} (h : SameWords ts us) (depth : Nat) :
    Agree Eq (skipNested depth ts >>= fun rest => .ok ⟨(), [], rest⟩)
      (skipNested depth us >>= fun rest => .ok ⟨(), [], rest⟩) := by
  induction ts generalizing us depth with
  | nil =>
    obtain rfl := h.nil_iff.1 rfl
    cases depth with
    | zero => exact .ok rfl rfl rfl
    | succ => exact .error rfl
  | cons t ts ih =>
    obtain ⟨u, us, rfl, hkind, -, hrest⟩ := h.exists_cons
    cases depth with
    | zero =>
      rw [skipNested, skipNested, hkind]
      split
      · exact .ok rfl rfl h
      · exact ih hrest _
    | succ depth =>
      rw [skipNested, skipNested, hkind]
      split
      · exact ih hrest _
      · split <;> exact ih hrest _

/-- The end of a declaration that is not looked into is found by kinds alone. -/
theorem alike_skipToEnd : Alike Eq skipToEnd skipToEnd :=
  fun _ _ hsame => skipNested_alike hsame 0

theorem alike_skipDeclaration : Alike Eq skipDeclaration skipDeclaration :=
  alike_skipToEnd.before fun _ => (Alike.accept _).before fun _ => .pure rfl

/-- What ends a spec is told by the kind of the next token. -/
theorem alike_specEnd (grouped : Bool) : Alike Eq (specEnd grouped) (specEnd grouped) := by
  refine (Alike.peek 0).before fun next => ?_
  split
  · exact .skip
  · exact .ite (.pure rfl) (.wanted _)
  · exact .pure rfl
  · exact .wanted _

section

variable {α : Type} {R : α → α → Prop}

/-- Specs in a group are read alike one by one. -/
theorem alike_groupRest {spec : Parser α} (h : Alike R spec spec) (n : Nat) :
    Alike (List.Forall₂ R) (groupRest spec n) (groupRest spec n) := by
  induction n with
  | zero => exact .wanted _
  | succ n ih =>
    refine Alike.skipSemicolons.before fun _ => (Alike.accept _).before fun closed => .ite ?_ ?_
    · exact .pure .nil
    · have hspecs : Alike (List.Forall₂ R)
          (spec >>= fun first => groupRest spec n >>= fun others => pure (first :: others))
          (spec >>= fun first => groupRest spec n >>= fun others => pure (first :: others)) :=
        h.bind fun x y hxy => ih.bind fun xs ys hall => .pure (.cons hxy hall)
      refine (Alike.peek 0).before fun next => .ite ?_ hspecs
      exact Alike.bind (R := Eq) (.wanted _) fun _ _ _ => hspecs

/-- A declaration is a group in both files or in neither. -/
theorem alike_group {spec : Bool → Parser α} (h : ∀ grouped, Alike R (spec grouped) (spec grouped)) :
    Alike (List.Forall₂ R) (group spec) (group spec) := by
  refine (Alike.accept _).before fun opened => .ite ?_ ?_
  · refine (Alike.bounded (alike_groupRest (h true))).bind fun xs ys hall => ?_
    exact (alike_specEnd false).before fun _ => .pure hall
  · exact (h false).bind fun x y hxy => .pure (.cons hxy .nil)

end

/-! ### Package clause and imports -/

/-- The package clause gives the same name. -/
theorem alike_packageClause : Alike Eq packageClause packageClause := by
  refine Alike.skipSemicolons.before fun _ => (Alike.expect _ _).bind fun _ _ _ => ?_
  refine (Alike.expect _ _).bind fun package package' htext => ?_
  rw [htext]
  refine .ite ?_ ?_
  · refine Alike.bind (R := Eq) (.failAt _ _ _) fun _ _ _ => ?_
    exact (alike_specEnd false).before fun _ => .pure rfl
  · exact (alike_specEnd false).before fun _ => .pure rfl

/-- An alias, if there is one, is its text. -/
theorem alike_importAlias : Alike Eq importAlias importAlias := by
  refine .byHead (.ok rfl rfl rfl) fun t u ts us hkind htext hsame => ?_
  rw [importAlias, importAlias, hkind, htext]
  split
  · exact .ok rfl rfl hsame
  · exact .ok rfl rfl (SameWords.cons_iff.2 ⟨hkind, htext, hsame⟩)

/-- An import is the texts of its alias and its path. -/
theorem alike_importSpec (grouped : Bool) : Alike Eq (importSpec grouped) (importSpec grouped) := by
  refine alike_importAlias.before fun written => (Alike.expect _ _).bind fun literal literal' htext => ?_
  rw [htext]
  refine .ite ?_ ?_
  · refine Alike.bind (R := Eq) (.failAt _ _ _) fun _ _ _ => ?_
    exact (alike_specEnd grouped).before fun _ => .pure rfl
  · exact (alike_specEnd grouped).before fun _ => .pure rfl

/-- The imports of both files are the same. -/
theorem alike_imports (n : Nat) : Alike Eq (imports n) (imports n) := by
  induction n with
  | zero => exact .pure rfl
  | succ n ih =>
    refine (Alike.accept _).before fun found => .ite ?_ (.pure rfl)
    refine (alike_group alike_importSpec).bind fun first first' hall => ?_
    rw [List.forall₂_eq_eq_eq] at hall
    exact hall ▸ ih.before fun _ => .pure rfl

/-! ### Declarations -/

/-- Declarations of one object. -/
def Declaration.Same (d d' : Declaration) : Prop :=
  d.object = d'.object

/-- Whether a declaration is taken for a generic one is told by the kinds of three tokens. -/
theorem isGeneric_alike {ts us : List Token} (h : SameWords ts us) : isGeneric ts = isGeneric us := by
  cases ts with
  | nil =>
    obtain rfl := h.nil_iff.1 rfl
    rfl
  | cons t ts =>
    obtain ⟨u, us, rfl, hkind, -, hrest⟩ := h.exists_cons
    cases ts with
    | nil =>
      obtain rfl := hrest.nil_iff.1 rfl
      rfl
    | cons t' ts =>
      obtain ⟨u', us, rfl, hkind', -, hbehind⟩ := hrest.exists_cons
      have hnext : ts.head?.map Token.kind = us.head?.map Token.kind := by
        simpa using congrArg List.head? hbehind.kinds_eq
      rw [isGeneric, isGeneric, hkind, hkind', hnext]

section

variable {scope : Scope}

/-- A definition makes an alias in both files or in neither, of the same type. -/
theorem alike_typeDefinition : Alike Eq (typeDefinition scope) (typeDefinition scope) :=
  (Alike.accept _).before fun _ => alike_typeExpr.before fun _ => .pure rfl

theorem alike_unsupported (reason : String) :
    Alike Eq (unsupported reason) (unsupported reason) :=
  alike_skipToEnd.before fun _ => .pure rfl

/-- A type that fails for a cause that is passed over is passed over in both files: the cause is the
same, and the tokens are skipped anew from the same place. -/
theorem alike_typeKind : Alike Eq (typeKind scope) (typeKind scope) := by
  intro ts us hsame
  rw [typeKind, typeKind, isGeneric_alike hsame]
  split
  · exact alike_unsupported _ _ _ hsame
  · have hdefinition : Agree Eq (typeDefinition scope ts) (typeDefinition scope us) :=
      alike_typeDefinition ts us hsame
    revert hdefinition
    generalize typeDefinition scope ts = result
    generalize typeDefinition scope us = result'
    rintro (⟨hvalue, hreferences, hrest⟩ | hcause)
    · exact .ok hvalue hreferences hrest
    · -- the cause decides whether the declaration is passed over, and the tokens are skipped anew
      dsimp only
      rw [hcause]
      split
      · exact alike_unsupported _ _ _ hsame
      · exact .error hcause

/-- A type spec declares one object. Its place is that of the declared name, and it is not compared.
-/
theorem alike_typeSpec (grouped : Bool) :
    Alike Declaration.Same (typeSpec scope grouped) (typeSpec scope grouped) := by
  refine (Alike.expect _ _).bind fun declared declared' htext => ?_
  rw [htext]
  refine alike_typeKind.before fun kind => (alike_specEnd grouped).before fun _ => .pure rfl

/-- Parentheses close alike. -/
theorem skipParens_alike {ts us : List Token} (h : SameWords ts us) (depth : Nat) :
    Agree Eq (skipParens depth ts >>= fun rest => .ok ⟨true, [], rest⟩)
      (skipParens depth us >>= fun rest => .ok ⟨true, [], rest⟩) := by
  induction ts generalizing us depth with
  | nil =>
    obtain rfl := h.nil_iff.1 rfl
    exact .error rfl
  | cons t ts ih =>
    obtain ⟨u, us, rfl, hkind, -, hrest⟩ := h.exists_cons
    rw [skipParens.eq_def, skipParens.eq_def depth (u :: us)]
    dsimp only
    rw [hkind]
    split
    · exact ih hrest _
    · split
      · cases depth with
        | zero => exact .ok rfl rfl hrest
        | succ depth => exact ih hrest _
      · exact ih hrest _

/-- A receiver is skipped in both files or in neither. -/
theorem alike_receiver : Alike Eq receiver receiver := by
  refine .byHead (.ok rfl rfl rfl) fun t u ts us hkind htext hsame => ?_
  rw [receiver, receiver, hkind]
  split
  · exact skipParens_alike hsame 0
  · exact .ok rfl rfl (SameWords.cons_iff.2 ⟨hkind, htext, hsame⟩)

/-- A function is declared by its name, and a method declares nothing. -/
theorem alike_funcDeclaration :
    Alike (List.Forall₂ Declaration.Same) funcDeclaration funcDeclaration := by
  refine alike_receiver.before fun isMethod => (Alike.expect _ _).bind fun declared declared' htext => ?_
  rw [htext]
  -- a method declares nothing, nor does a function that is called `_` or `init`
  refine alike_skipDeclaration.before fun _ => .ite (.pure .nil) (.pure (.cons rfl .nil))

/-- Of names that agree in their words, the same are kept. -/
theorem forall₂_declared {ts us : List Token} (h : SameWords ts us) (kind : ObjectKind) :
    List.Forall₂ Declaration.Same
      ((ts.filter (·.text ≠ "_")).map fun t => ⟨⟨t.text, kind⟩, t.pos⟩)
      ((us.filter (·.text ≠ "_")).map fun t => ⟨⟨t.text, kind⟩, t.pos⟩) := by
  induction ts generalizing us with
  | nil =>
    obtain rfl := h.nil_iff.1 rfl
    exact .nil
  | cons t ts ih =>
    obtain ⟨u, us, rfl, -, htext, hrest⟩ := h.exists_cons
    rw [List.filter_cons, List.filter_cons, htext]
    split
    · exact .cons (congrArg (Object.mk · kind) htext) (ih hrest)
    · exact ih hrest

/-- A spec of variables or constants declares the same names, but for the blank ones. -/
theorem alike_valueSpec (kind : ObjectKind) :
    Alike (List.Forall₂ Declaration.Same) (valueSpec kind) (valueSpec kind) :=
  alike_names.bind fun _ _ hsame =>
    alike_skipDeclaration.before fun _ => .pure (forall₂_declared hsame kind)

/-- Lists of lists that are related one by one stay so when they are put in a row. -/
theorem forall₂_flatten {dss dss' : List (List Declaration)}
    (h : List.Forall₂ (List.Forall₂ Declaration.Same) dss dss') :
    List.Forall₂ Declaration.Same dss.flatten dss'.flatten := by
  induction h with
  | nil => exact .nil
  | cons hfirst _ ih => exact List.rel_append hfirst ih

/-- **Declarations are read alike**: the first token tells which reader is in charge. -/
theorem alike_declarations (n : Nat) :
    Alike (List.Forall₂ Declaration.Same) (declarations scope n) (declarations scope n) := by
  induction n with
  | zero => exact .pure .nil
  | succ n ih =>
    have hmore {ds ds' : List Declaration} (h : List.Forall₂ Declaration.Same ds ds') :
        Alike (List.Forall₂ Declaration.Same)
          (declarations scope n >>= fun more => pure (ds ++ more))
          (declarations scope n >>= fun more => pure (ds' ++ more)) :=
      ih.bind fun _ _ hall => .pure (List.rel_append h hall)
    refine (Alike.peek 0).before fun next => ?_
    split
    · exact .pure .nil
    · exact Alike.skip.before fun _ => ih
    · exact Alike.skip.before fun _ => (alike_group alike_typeSpec).bind fun _ _ h => hmore h
    · exact Alike.skip.before fun _ => alike_funcDeclaration.bind fun _ _ h => hmore h
    · exact Alike.skip.before fun _ =>
        (alike_group fun _ => alike_valueSpec _).bind fun _ _ h => hmore (forall₂_flatten h)
    · exact Alike.skip.before fun _ =>
        (alike_group fun _ => alike_valueSpec _).bind fun _ _ h => hmore (forall₂_flatten h)
    · exact .fail _
    · exact .fail _

end

/-! ### Files -/

/-- Contents that differ in the places of their declarations only. -/
structure Contents.Same (c c' : Contents) : Prop where
  package : c.package = c'.package
  imports : c.imports = c'.imports
  declarations : List.Forall₂ Declaration.Same c.declarations c'.declarations

/-- **Files with the same words are read alike.** -/
theorem alike_contents (path : String) : Alike Contents.Same (contents path) (contents path) := by
  refine alike_packageClause.before fun package => (Alike.bounded alike_imports).before fun imports => ?_
  exact (Alike.bounded alike_declarations).bind fun _ _ h => .pure ⟨rfl, rfl, h⟩

end Multicast.Syntax
