import Multicast.Proofs.Reads

/-!
# The grammar of types

How types may be written, over words, with what generic code adds: type arguments behind a type name
(`Written.Name`), and interface elements that restrict type arguments (`Written.Union`). The grammar is
given level by level: `Written.Form` says how a type is made of the types inside it, and
`Written.TypeWithin` nests it.

Generic code cannot be described, and there is a `Verdict` on what comes of trying. Where a list decides
by its second token whether a name stands in front of a type, the name of a generic type counts as such a
name, and its arguments as the length of an array (`Verdict.asEntry`).

The delimiters of a written type nest (`Nested`).

## What the verdicts are about

A verdict is given along with the derivation, so that one relation says both how something is written and
what comes of reading it. Parts are read from left to right, and the verdict on the whole is that on the
first part which is not read (`Verdict.andThen`). There are two places where the reader takes a generic
type for something else: where a name may stand in front of a type, the name of the generic type is taken
for it, and its arguments for the length of an array. In such a place what is written is *missed*, and the
file is refused.

Words are used and not tokens, since nothing of this depends on where something stands.
-/

namespace Multicast.Syntax

open Source

/-! ### Nested delimiters

A list of the delimiters that are due is carried along the words. It has the one that is due first in
front, and for words that nest it is the same before and behind. -/

/-- The delimiter that closes what a delimiter opens. -/
def closer? : Kind → Option Kind
  | .leftParen => some .rightParen
  | .leftBracket => some .rightBracket
  | .leftBrace => some .rightBrace
  | _ => none

/-- The delimiters that are due behind a token, given those due before it. Only between delimiters may a
semicolon stand. -/
def dueBehind (due : List Kind) (kind : Kind) : Option (List Kind) :=
  match closer? kind with
  | some closing => some (closing :: due)
  | none =>
    if kind.isClosing then if due.head? = some kind then some due.tail else none
    else if kind = .semicolon ∧ due = [] then none else some due

/-- **Delimiters nest**: whatever is due in front, the same is due behind. -/
def Nested (kinds : List Kind) : Prop :=
  ∀ due, kinds.foldlM dueBehind due = some due

/-- Delimiters nest up to one that closes what was open in front. -/
def NestedUpTo (closing : Kind) (kinds : List Kind) : Prop :=
  ∀ due, kinds.foldlM dueBehind (closing :: due) = some due

/-- Nested delimiters are put in a row. -/
theorem Nested.append {kinds kinds' : List Kind} (h : Nested kinds) (h' : Nested kinds') :
    Nested (kinds ++ kinds') := fun due => by
  rw [List.foldlM_append, h due]
  exact h' due

/-- In front of a closing delimiter there may be more that nests. -/
theorem Nested.upTo {kinds kinds' : List Kind} {closing : Kind} (h : Nested kinds)
    (h' : NestedUpTo closing kinds') : NestedUpTo closing (kinds ++ kinds') := fun due => by
  rw [List.foldlM_append, h (closing :: due)]
  exact h' due

/-- Brackets with nested delimiters inside, and more behind. -/
theorem Nested.brackets {kinds kinds' : List Kind} (h : Nested kinds) (h' : Nested kinds') :
    Nested (.leftBracket :: (kinds ++ .rightBracket :: kinds')) := by
  have hclose : NestedUpTo .rightBracket (.rightBracket :: kinds') := fun due => h' due
  exact fun due => h.upTo hclose due

theorem nested_nil : Nested [] := fun _ => rfl

/-! ### Verdicts -/

/-- What comes of reading something written. -/
inductive Verdict
  /-- It is read. -/
  | plain
  /-- It is found that it cannot be described. -/
  | seen
  /-- It is refused, as if it were not in the language. -/
  | missed
  deriving DecidableEq

namespace Verdict

/-- The verdict on two parts, of which the first is read first. -/
def andThen : Verdict → Verdict → Verdict
  | plain, v => v
  | seen, _ => seen
  | missed, _ => missed

/-- What is read is no verdict on what is behind it. -/
@[simp] theorem plain_andThen (v : Verdict) : plain.andThen v = v := rfl

/-- Behind what is judged, something that is read changes nothing. -/
@[simp] theorem andThen_plain (v : Verdict) : v.andThen plain = v := by
  cases v <;> rfl

end Verdict

/-- Whether words begin with a bare name and a bracket. -/
def opensInstance : List Word → Bool
  | name :: bracket :: _ => name.kind = .identifier && bracket.kind = .leftBracket
  | _ => false

/-- The verdict on a type in a list in which a name may stand in front of a type. -/
def Verdict.asEntry (v : Verdict) (type : List Word) : Verdict :=
  if opensInstance type then .missed else v

namespace Written

variable (scope : Scope) (T : Verdict → List Word → Prop)

/-! ### Names -/

/-- Names between commas. -/
inductive Names : List Word → Prop
  | last (name : String) : Names [⟨.identifier, name⟩]
  | more (name comma : String) {names : List Word} (h : Names names) :
    Names (⟨.identifier, name⟩ :: ⟨.comma, comma⟩ :: names)

/-- A type name, with or without the name of an import in front. -/
inductive TypeName : List Word → Prop
  | bare (name : String) : TypeName [⟨.identifier, name⟩]
  | qualified {q : String} (hq : (scope.import? q).isSome) (dot name : String) :
    TypeName [⟨.identifier, q⟩, ⟨.dot, dot⟩, ⟨.identifier, name⟩]

/-- Type arguments between their brackets. A comma may follow the last one. -/
inductive Arguments : List Word → Prop
  | last {v : Verdict} {type : List Word} (h : T v type) : Arguments type
  | comma {v : Verdict} {type : List Word} (h : T v type) (comma : String) :
    Arguments (type ++ [⟨.comma, comma⟩])
  | more {v : Verdict} {type others : List Word} (h : T v type) (comma : String)
    (hothers : Arguments others) : Arguments (type ++ ⟨.comma, comma⟩ :: others)

/-- A type name, with or without type arguments. -/
inductive Name : Verdict → List Word → Prop
  | plain {name : List Word} (h : TypeName scope name) : Name .plain name
  | applied {name arguments : List Word} (h : TypeName scope name) (h' : Arguments T arguments)
    (opening closing : String) : Name .seen
      (name ++ ⟨.leftBracket, opening⟩ :: (arguments ++ [⟨.rightBracket, closing⟩]))

/-! ### Parameter lists -/

/-- An entry of a parameter list, with a name or without, with three dots or without. -/
inductive Entry : Bool → Bool → Verdict → List Word → Prop
  | named (name : String) {v : Verdict} {type : List Word} (h : T v type) :
    Entry true false v (⟨.identifier, name⟩ :: type)
  | namedDots (name dots : String) {v : Verdict} {type : List Word} (h : T v type) :
    Entry true true v (⟨.identifier, name⟩ :: ⟨.ellipsis, dots⟩ :: type)
  | unnamed {v : Verdict} {type : List Word} (h : T v type) : Entry false false (v.asEntry type) type
  | unnamedDots (dots : String) {v : Verdict} {type : List Word} (h : T v type) :
    Entry false true v (⟨.ellipsis, dots⟩ :: type)

/-- The entries of a parameter list up to its closing parenthesis: all have names, or none has. A name
may wait for its type, which is then that of the next entry; three dots stand in the last entry at most,
for which no name waits. A comma may follow the last entry. -/
inductive Entries (allowDots named : Bool) : Bool → Verdict → List Word → Prop
  | close (paren : String) : Entries allowDots named false .plain [⟨.rightParen, paren⟩]
  | waiting {waits : Bool} (name comma : String) {v : Verdict} {others : List Word}
    (hnamed : named = true) (h : Entries allowDots named true v others) :
    Entries allowDots named waits v (⟨.identifier, name⟩ :: ⟨.comma, comma⟩ :: others)
  | last {waits dots : Bool} {v : Verdict} {entry : List Word} (h : Entry T named dots v entry)
    (hdots : dots = true → allowDots = true ∧ waits = false) (paren : String) :
    Entries allowDots named waits v (entry ++ [⟨.rightParen, paren⟩])
  | more {waits dots : Bool} {v v' : Verdict} {entry others : List Word}
    (h : Entry T named dots v entry) (hdots : dots = true → allowDots = true ∧ waits = false ∧
      ∃ paren, others = [⟨.rightParen, paren⟩]) (comma : String)
    (hothers : Entries allowDots named false v' others) :
    Entries allowDots named waits (v.andThen v') (entry ++ ⟨.comma, comma⟩ :: others)

/-- A parameter list in its parentheses. -/
inductive Parameters (allowDots : Bool) : Verdict → List Word → Prop
  | list (paren : String) {named : Bool} {v : Verdict} {entries : List Word}
    (h : Entries T allowDots named false v entries) :
    Parameters allowDots v (⟨.leftParen, paren⟩ :: entries)

/-- Parameters and results. -/
inductive Signature : Verdict → List Word → Prop
  | bare {v : Verdict} {list : List Word} (h : Parameters T true v list) : Signature v list
  | result {v v' : Verdict} {list type : List Word} (h : Parameters T true v list) (h' : T v' type)
    (hparen : leading type none ≠ some .leftParen) : Signature (v.andThen v') (list ++ type)
  | results {v v' : Verdict} {list results : List Word} (h : Parameters T true v list)
    (h' : Parameters T false v' results) : Signature (v.andThen v') (list ++ results)

/-! ### Interfaces and structs -/

/-- What stands between an opening brace and the closing one: items with semicolons between them. -/
inductive Braced (I : Verdict → List Word → Prop) : Verdict → List Word → Prop
  | close (brace : String) : Braced I .plain [⟨.rightBrace, brace⟩]
  | semicolon (text : String) {v : Verdict} {others : List Word} (h : Braced I v others) :
    Braced I v (⟨.semicolon, text⟩ :: others)
  | item {v v' : Verdict} {item others : List Word} (h : I v item) (h' : Braced I v' others)
    (hends : leading others none ∈ [some .semicolon, some .rightBrace]) :
    Braced I (v.andThen v') (item ++ others)

/-- A term of an interface element: a type, or the types whose underlying type it is. -/
inductive Term : Verdict → List Word → Prop
  | type {v : Verdict} {type : List Word} (h : T v type) : Term v type
  | underlying (tilde : String) {v : Verdict} {type : List Word} (h : T v type) :
    Term .seen (⟨.tilde, tilde⟩ :: type)

/-- A union of terms. -/
inductive Union : Verdict → List Word → Prop
  | last {v : Verdict} {term : List Word} (h : Term T v term) : Union v term
  | more {v v' : Verdict} {term others : List Word} (h : Term T v term) (pipe : String)
    (h' : Union v' others) : Union (v.andThen .seen) (term ++ ⟨.pipe, pipe⟩ :: others)

/-- An element of an interface. -/
inductive Element : Verdict → List Word → Prop
  | method (name : String) {v : Verdict} {signature : List Word} (h : Signature T v signature) :
    Element v (⟨.identifier, name⟩ :: signature)
  | union {v : Verdict} {union : List Word} (h : Union T v union) : Element v union

/-- The tag of a field, if there is one. -/
inductive Tag : List Word → Prop
  | none : Tag []
  | some (text : String) : Tag [⟨.string, text⟩]

/-- Whether a type may be embedded in a struct: a type name, or a pointer to one. -/
def isEmbedded : List Word → Bool
  | ⟨.identifier, _⟩ :: _ => true
  | ⟨.star, _⟩ :: ⟨.identifier, _⟩ :: _ => true
  | _ => false

/-- An embedded field begins with a name, or with a star and a name. -/
theorem embedded_cases {type : List Word} (h : isEmbedded type = true) :
    (∃ name more, type = ⟨.identifier, name⟩ :: more) ∨
      ∃ star name more, type = ⟨.star, star⟩ :: ⟨.identifier, name⟩ :: more := by
  unfold isEmbedded at h
  split at h
  · exact .inl ⟨_, _, rfl⟩
  · exact .inr ⟨_, _, _, rfl⟩
  · cases h

/-- A line of a struct. -/
inductive Line : Verdict → List Word → Prop
  | named {names type tag : List Word} (hnames : Names names) {v : Verdict} (h : T v type)
    (htag : Tag tag) : Line v (names ++ (type ++ tag))
  | embedded {type tag : List Word} {v : Verdict} (h : T v type) (hembedded : isEmbedded type)
    (htag : Tag tag) : Line (v.asEntry type) (type ++ tag)

/-! ### Types

One level of a type is a relation between words and the relation for the types inside it. To nest it is a
recursion on the number of levels, so that inductions over types are inductions on that number. -/

/-- The length of an array. Three dots alone are none. -/
structure Length (words : List Word) : Prop where
  nested : Nested (words.map Word.kind)
  text : String.join (words.map Word.text) ∉ ["", "..."]

/-- **How a type is made** of the types inside it. An arrow behind `chan` belongs to it. -/
inductive Form : Verdict → List Word → Prop
  | name {v : Verdict} {name : List Word} (h : Name scope T v name) : Form v name
  | pointer (star : String) {v : Verdict} {type : List Word} (h : T v type) :
    Form v (⟨.star, star⟩ :: type)
  | slice (opening closing : String) {v : Verdict} {type : List Word} (h : T v type) :
    Form v (⟨.leftBracket, opening⟩ :: ⟨.rightBracket, closing⟩ :: type)
  | array (opening closing : String) {v : Verdict} {length type : List Word} (hlength : Length length)
    (h : T v type) :
    Form v (⟨.leftBracket, opening⟩ :: (length ++ ⟨.rightBracket, closing⟩ :: type))
  | map (kw opening closing : String) {v v' : Verdict} {key type : List Word} (h : T v key)
    (h' : T v' type) : Form (v.andThen v')
      (⟨.keyword .mapKw, kw⟩ :: ⟨.leftBracket, opening⟩ :: (key ++ ⟨.rightBracket, closing⟩ :: type))
  | chan (kw : String) {v : Verdict} {type : List Word} (h : T v type)
    (harrow : leading type none ≠ some .arrow) : Form v (⟨.keyword .chanKw, kw⟩ :: type)
  | send (kw arrow : String) {v : Verdict} {type : List Word} (h : T v type) :
    Form v (⟨.keyword .chanKw, kw⟩ :: ⟨.arrow, arrow⟩ :: type)
  | receive (arrow kw : String) {v : Verdict} {type : List Word} (h : T v type) :
    Form v (⟨.arrow, arrow⟩ :: ⟨.keyword .chanKw, kw⟩ :: type)
  | func (kw : String) {v : Verdict} {signature : List Word} (h : Signature T v signature) :
    Form v (⟨.keyword .funcKw, kw⟩ :: signature)
  | interface (kw brace : String) {v : Verdict} {body : List Word} (h : Braced (Element T) v body) :
    Form v (⟨.keyword .interfaceKw, kw⟩ :: ⟨.leftBrace, brace⟩ :: body)
  | struct (kw brace : String) {v : Verdict} {body : List Word} (h : Braced (Line T) v body) :
    Form v (⟨.keyword .structKw, kw⟩ :: ⟨.leftBrace, brace⟩ :: body)
  | parens (opening closing : String) {v : Verdict} {type : List Word} (h : T v type) :
    Form v (⟨.leftParen, opening⟩ :: (type ++ [⟨.rightParen, closing⟩]))

/-- A type that is nested less than the given number of levels deep. -/
def TypeWithin : Nat → Verdict → List Word → Prop
  | 0 => fun _ _ => False
  | n + 1 => Form scope (TypeWithin n)

/-- **A written type.** -/
def IsType (v : Verdict) (words : List Word) : Prop :=
  ∃ n, TypeWithin scope n v words

/-- What stands behind a declared name: a type, or a sign that the name is another one of a type. -/
inductive Definition : Verdict → List Word → Prop
  | type {v : Verdict} {type : List Word} (h : IsType scope v type) : Definition v type
  | another (assign : String) {v : Verdict} {type : List Word} (h : IsType scope v type) :
    Definition v (⟨.assign, assign⟩ :: type)

/-- Whether a definition begins as type parameters do: with a bracket and a name, and not the length of
an array that is this name alone. -/
def opensParameters : List Word → Bool
  | bracket :: parameter :: next :: _ =>
    bracket.kind = .leftBracket && parameter.kind = .identifier && next.kind ≠ .rightBracket
  | _ => false

/-- A type spec in front of other words: behind `type` or in a group, with a semicolon at its end unless
the group ends there. -/
inductive Spec (name : String) (definition : List Word) : Bool → List Word → List Word → Prop
  | single (kw semicolon : String) {behind : List Word} : Spec name definition false
      (⟨.keyword .typeKw, kw⟩ :: ⟨.identifier, name⟩ :: (definition ++ [⟨.semicolon, semicolon⟩])) behind
  | grouped (semicolon : String) {behind : List Word} : Spec name definition true
      (⟨.identifier, name⟩ :: (definition ++ [⟨.semicolon, semicolon⟩])) behind
  | last (paren : String) {behind : List Word} : Spec name definition true
      (⟨.identifier, name⟩ :: definition) (⟨.rightParen, paren⟩ :: behind)

/-! ### Written types nest -/

section

variable {scope : Scope} {T : Verdict → List Word → Prop} {v : Verdict} {words : List Word}

/-- A type name has no delimiters. -/
theorem TypeName.nested (h : TypeName scope words) : Nested (words.map Word.kind) := by
  cases h <;> exact fun due => rfl

/-- Commas are no delimiters. -/
theorem Names.nested (h : Names words) : Nested (words.map Word.kind) := by
  induction h with
  | last name => exact fun due => rfl
  | more name comma _ ih => exact fun due => ih due

/-- A tag has no delimiters. -/
theorem Tag.nested (h : Tag words) : Nested (words.map Word.kind) := by
  cases h <;> exact fun due => rfl

/-- Items between braces nest up to the closing brace if each of them nests. -/
theorem Braced.nestedUpTo {I : Verdict → List Word → Prop}
    (hI : ∀ v words, I v words → Nested (words.map Word.kind)) (h : Braced I v words) :
    NestedUpTo .rightBrace (words.map Word.kind) := by
  induction h with
  | close brace => exact fun due => rfl
  | semicolon text _ ih => exact fun due => ih due
  | item h _ _ ih =>
    rw [List.map_append]
    exact (hI _ _ h).upTo ih

/-! Each part of the grammar nests if the types in it do. -/

variable (hT : ∀ v words, T v words → Nested (words.map Word.kind))
include hT

/-- Type arguments open and close with a bracket, and nest between the two if each of them does. -/
theorem Arguments.nested (h : Arguments T words) : Nested (words.map Word.kind) := by
  induction h with
  | last h => exact hT _ _ h
  | comma h _ =>
    rw [List.map_append]
    exact (hT _ _ h).append fun due => rfl
  | more h _ _ ih =>
    rw [List.map_append]
    exact (hT _ _ h).append fun due => ih due

/-- A type name nests with its arguments. -/
theorem Name.nested (h : Name scope T v words) : Nested (words.map Word.kind) := by
  cases h with
  | plain h => exact h.nested
  | applied h harguments opening closing =>
    rw [List.map_append, List.map_cons, List.map_append]
    exact h.nested.append ((harguments.nested hT).brackets nested_nil)

/-- An entry nests as its type does: a name and three dots in front of it are no delimiters. -/
theorem Entry.nested {named dots : Bool} (h : Entry T named dots v words) :
    Nested (words.map Word.kind) := by
  cases h with
  | named name h => exact fun due => hT _ _ h due
  | namedDots name dots h => exact fun due => hT _ _ h due
  | unnamed h => exact hT _ _ h
  | unnamedDots dots h => exact fun due => hT _ _ h due

/-- Entries are followed by the parenthesis that closes the list. -/
theorem Entries.nestedUpTo {allowDots named waits : Bool} (h : Entries T allowDots named waits v words) :
    NestedUpTo .rightParen (words.map Word.kind) := by
  induction h with
  | close paren => exact fun due => rfl
  | waiting name comma _ _ ih => exact fun due => ih due
  | last h _ paren =>
    rw [List.map_append]
    exact (h.nested hT).upTo fun due => rfl
  | more h _ comma _ ih =>
    rw [List.map_append]
    exact (h.nested hT).upTo fun due => ih due

/-- A parameter list nests between its own parentheses. -/
theorem Parameters.nested {allowDots : Bool} (h : Parameters T allowDots v words) :
    Nested (words.map Word.kind) := by
  cases h with
  | list paren h => exact fun due => h.nestedUpTo hT due

/-- A signature nests, with one result, a list of them, or none. -/
theorem Signature.nested (h : Signature T v words) : Nested (words.map Word.kind) := by
  cases h with
  | bare h => exact h.nested hT
  | result h h' _ =>
    rw [List.map_append]
    exact (h.nested hT).append (hT _ _ h')
  | results h h' =>
    rw [List.map_append]
    exact (h.nested hT).append (h'.nested hT)

/-- A term of a union nests as its type does. -/
theorem Term.nested (h : Term T v words) : Nested (words.map Word.kind) := by
  cases h with
  | type h => exact hT _ _ h
  | underlying tilde h => exact fun due => hT _ _ h due

/-- A union nests as its terms do. -/
theorem Union.nested (h : Union T v words) : Nested (words.map Word.kind) := by
  induction h with
  | last h => exact h.nested hT
  | more h pipe _ ih =>
    rw [List.map_append]
    exact (h.nested hT).append fun due => ih due

/-- A method and an embedded type nest, and so does what restricts type arguments. -/
theorem Element.nested (h : Element T v words) : Nested (words.map Word.kind) := by
  cases h with
  | method name h => exact fun due => h.nested hT due
  | union h => exact h.nested hT

/-- A line of a struct nests as its type does. -/
theorem Line.nested (h : Line T v words) : Nested (words.map Word.kind) := by
  cases h with
  | named hnames h htag =>
    rw [List.map_append, List.map_append]
    exact hnames.nested.append ((hT _ _ h).append htag.nested)
  | embedded h _ htag =>
    rw [List.map_append]
    exact (hT _ _ h).append htag.nested

/-- **A written type nests** if the types inside it do: each construct closes what it opens. There
is one case for each. -/
theorem Form.nested (h : Form scope T v words) : Nested (words.map Word.kind) := by
  cases h with
  | name h => exact h.nested hT
  | pointer star h => exact fun due => hT _ _ h due
  | slice opening closing h => exact fun due => hT _ _ h due
  | array opening closing hlength h =>
    rw [List.map_cons, List.map_append]
    exact hlength.nested.brackets (hT _ _ h)
  | map kw opening closing h h' =>
    rw [List.map_cons, List.map_cons, List.map_append]
    exact fun due => (hT _ _ h).brackets (hT _ _ h') due
  | chan kw h _ => exact fun due => hT _ _ h due
  | send kw arrow h => exact fun due => hT _ _ h due
  | receive arrow kw h => exact fun due => hT _ _ h due
  | func kw h => exact fun due => h.nested hT due
  | interface kw brace h => exact fun due => h.nestedUpTo (fun _ _ h => h.nested hT) due
  | struct kw brace h => exact fun due => h.nestedUpTo (fun _ _ h => h.nested hT) due
  | parens opening closing h =>
    rw [List.map_cons, List.map_append]
    exact fun due => (hT _ _ h).upTo (fun due => rfl) due

end

/-- **The delimiters of a written type nest.** -/
theorem TypeWithin.nested {scope : Scope} {n : Nat} {v : Verdict} {words : List Word}
    (h : TypeWithin scope n v words) : Nested (words.map Word.kind) := by
  induction n generalizing v words with
  | zero => cases h
  | succ n ih => exact Form.nested (fun v words => ih) h

/-- The delimiters of a definition nest. -/
theorem Definition.nested {scope : Scope} {v : Verdict} {words : List Word}
    (h : Definition scope v words) : Nested (words.map Word.kind) := by
  cases h with
  | type h =>
    obtain ⟨n, h⟩ := h
    exact h.nested
  | another assign h =>
    obtain ⟨n, h⟩ := h
    exact fun due => h.nested due

end Written

end Multicast.Syntax
