import Multicast.Proofs.Echoes

/-!
# Types are read again

Each reader of the grammar of types reads again what it has read before, and gives up again what it has
given up (`Multicast.Proofs.Echoes`), from names up to whole types (`echoes_typeWithin`).
-/

namespace Multicast.Syntax

open Source Multicast.Syntax.Parser

/-! ### Names -/

section

variable {ι : Type} {scope : Scope} {budget : ι → Nat}

/-- A local type is put together without reading a token. -/
theorem echoes_localType (name : String) (pos : Position) (a : Nat) :
    Echoes false budget a a (scope.localType name pos) fun _ => scope.localType name pos := by
  obtain ⟨t, references, h⟩ : ∃ t references, ∀ tokens,
      scope.localType name pos tokens = .ok ⟨t, references, tokens⟩ := by
    unfold Scope.localType
    split
    next => exact ⟨.basic name, [], fun _ => rfl⟩
    next => exact ⟨.named scope.package name, [⟨name, pos⟩], fun _ => rfl⟩
  intro next
  constructor
  · intro tokens parsed _ hok
    rw [h] at hok
    cases hok
    exact ⟨[], rfl, by simp, .of_shifts (.nil a), fun _ _ rest _ => h rest⟩
  · intro tokens e _ herror
    rw [h] at herror
    cases herror

/-- The name of a type is read again: only a dot or a bracket behind it would matter. -/
theorem echoes_typeName (eats : Bool) (a : Nat) :
    Echoes eats budget a a scope.typeName fun _ => scope.typeName := by
  -- behind the name a bracket decides that the type cannot be described
  have hplain (first : Token) (t : GoType) : Echoes false budget a a
      (Parser.at? .leftBracket >>= fun b =>
        if b then failAt first.pos .instantiation >>= fun _ : Unit => pure t else pure t) fun _ =>
      (Parser.at? .leftBracket >>= fun b =>
        if b then failAt first.pos .instantiation >>= fun _ : Unit => pure t else pure t) := by
    refine .at? fun next => .ite (fun hnext => ?_) fun _ => .pure t
    obtain rfl : next = some .leftBracket := by simpa using hnext
    exact .giveUp (Shifts.opening rfl).inside (by simp) (fun _ _ _ => rfl) fun _ _ _ _ => rfl
  refine fun _ => (EchoesAt.expect _ (.plain rfl (by simp))).bind fun first => ?_
  refine .accept (.plain rfl (by simp)) ?_ ?_
  · refine fun _ => (EchoesAt.expect _ (.plain rfl (by simp))).bind fun second => ?_
    cases scope.import? first.text with
    | none => exact fun _ => .stop fun _ _ => ⟨_, rfl, rfl⟩
    | some package => exact fun _ => (EchoesAt.pure _).bind fun t => hplain first t
  · exact fun next => (echoes_localType first.text first.pos a next).bind fun t => hplain first t

end

/-! ### Parameter lists -/

/-- Reads an entry that does not begin with a name of its own. -/
def Entry.readUnnamed (type : Parser GoType) : Parser Entry := do
  let pos ← here
  let dots ← Parser.accept .ellipsis
  let written ← type
  return .unnamed dots written (pos.getD .start)

/-- Reads an entry that begins with a name, given the kind of the token behind the name. -/
def Entry.readBehindName (type : Parser GoType) (next : Option Kind) : Parser Entry :=
  if next = some .comma ∨ next = some .rightParen then do
    let t ← name
    return .lone t.text t.pos
  else if next ≠ some .dot then do
    let t ← name
    let dots ← Parser.accept .ellipsis
    let written ← type
    return .named t.text dots written t.pos
  else Entry.readUnnamed type

/-- An entry that begins with a name is read by what follows the name. -/
theorem parse_readBehindName (type : Parser GoType) (t : Token) (rest : List Token)
    (ht : t.kind = .identifier) :
    Entry.parse type (t :: rest) = Entry.readBehindName type (nextKind rest) (t :: rest) := by
  have hname : name (t :: rest) = .ok ⟨t, [], rest⟩ := if_pos ht
  rw [Entry.parse, Entry.readBehindName]
  simp only [ht, true_and, ← nextKind.eq_1]
  split
  · rw [bind_of_ok hname]
    rfl
  · split
    · rw [bind_of_ok hname]
    · rw [Entry.readUnnamed,
        bind_of_ok (show here (t :: rest) = .ok ⟨some t.pos, [], t :: rest⟩ from rfl)]
      rfl

/-- An entry that begins with anything else has no name. -/
theorem parse_readUnnamed (type : Parser GoType) {k : Kind} (hk : k ≠ .identifier)
    (tokens : List Token) (htokens : nextKind tokens = some k) :
    Entry.parse type tokens = Entry.readUnnamed type tokens := by
  cases tokens with
  | nil => cases htokens
  | cons t rest =>
    have ht : ¬t.kind = .identifier := by
      rintro h
      exact hk (by simpa [nextKind, h, eq_comm] using htokens)
    rw [Entry.parse, if_neg fun h => ht h.1, if_neg fun h => ht h.1, Entry.readUnnamed,
      bind_of_ok (show here (t :: rest) = .ok ⟨some t.pos, [], t :: rest⟩ from rfl)]
    rfl

section

variable {ι : Type} {scope : Scope} {budget : ι → Nat} {type : Parser GoType}
  {type' : ι → Parser GoType}

/-- The entries of a list are resolved without reading a token. -/
theorem echoes_resolve {allowDots named : Bool} (entries : List Entry) (waiting : List String) (a : Nat) :
    Echoes false budget a a (resolve scope allowDots named entries waiting) fun _ =>
      resolve scope allowDots named entries waiting := by
  induction entries generalizing waiting with
  | nil =>
    cases waiting with
    | nil => exact fun _ => .pure _
    | cons => exact fun _ => .stop fun _ _ => ⟨_, rfl, rfl⟩
  | cons e entries ih =>
    cases e with
    | lone name pos =>
      refine fun next => .ite (fun _ => ih _ next) fun _ => ?_
      exact (echoes_localType name pos a next).bind fun _ next => (ih _ next).bind fun _ _ => .pure _
    | named name dots type pos =>
      refine fun next => .ite (fun _ => .stop fun _ _ => ⟨_, rfl, rfl⟩) fun _ => ?_
      exact (ih _ next).bind fun _ _ => .pure _
    | unnamed dots type pos =>
      refine fun next => .ite (fun _ => .stop fun _ _ => ⟨_, rfl, rfl⟩) fun _ => ?_
      refine .ite (fun _ => .stop fun _ _ => ⟨_, rfl, rfl⟩) fun _ => ?_
      exact (ih _ next).bind fun _ _ => .pure _

variable (htype : ∀ eats a, Echoes eats budget a a type type')

include htype

/-- One entry of a parameter list is read again. -/
theorem echoes_entry (eats : Bool) (a : Nat) :
    Echoes eats budget a a (Entry.parse type) fun i => Entry.parse (type' i) := by
  have htyped (eats : Bool) (make : Bool → GoType → Entry) :
      Echoes eats budget a a (Parser.accept .ellipsis >>= fun dots => type >>= fun written =>
        pure (make dots written)) fun i =>
          Parser.accept .ellipsis >>= fun dots => type' i >>= fun written =>
            pure (make dots written) :=
    .accept (.plain rfl (by simp)) (fun next => (htype _ _ next).bind fun _ _ => .pure _)
      fun next => (htype _ _ next).bind fun _ _ => .pure _
  have hunnamed (next : Option Kind) : EchoesAt next true budget a a (Entry.readUnnamed type)
      fun i => Entry.readUnnamed (type' i) :=
    .here fun pos => htyped true _ next
  rintro (_ | k)
  · refine .stop fun tokens htokens => ?_
    cases tokens with
    | nil => exact ⟨_, rfl, rfl⟩
    | cons => cases htokens
  · by_cases hk : k = .identifier
    · subst hk
      refine (EchoesAt.lookPast (parse_readBehindName type)
        (fun i => parse_readBehindName (type' i)) fun n => ?_).weaken fun _ => rfl
      refine .ite (fun _ => ?_) fun _ => .ite (fun _ => ?_) fun _ => hunnamed _
      · exact (EchoesAt.expect _ (.plain rfl (by simp))).bind fun t _ => .pure _
      · exact (EchoesAt.expect _ (.plain rfl (by simp))).bind fun t => htyped false _
    · exact ((hunnamed _).congr (parse_readUnnamed type hk) fun i =>
        parse_readUnnamed (type' i) hk).weaken fun _ => rfl

/-- The entries of a parameter list are read again. Their loop has a budget of its own beside that
of the types in them. -/
theorem echoes_entries (n : Nat) (a : Nat) :
    Echoes false (fun i : ι × Nat => min i.2 (budget i.1)) (a + 1) a (Entry.parseAll type n)
      fun i => Entry.parseAll (type' i.1) i.2 := by
  induction n with
  | zero => exact fun _ => .stop fun _ _ => ⟨_, rfl, rfl⟩
  | succ n ih =>
    -- only parsers with a round left are asked to read anything
    have hround : Echoes false (fun i : ι × Nat => min i.2 (budget i.1)) (a + 1) a
        (Entry.parseAll type (n + 1)) fun i => Entry.parseAll (type' i.1) (i.2 - 1 + 1) := by
      refine .accept (.closing rfl) (fun _ => .pure _) ?_
      have hfirst : Echoes true (fun i : ι × Nat => min i.2 (budget i.1)) (a + 1) (a + 1)
          (Entry.parse type) fun i => Entry.parse (type' i.1) := fun next =>
        (echoes_entry htype true (a + 1) next).reindex Prod.fst (by simp) fun _ _ => rfl
      refine fun next => ((hfirst next).eat fun first => ?_).weaken fun _ => rfl
      have hothers : Echoes false (fun i : ι × Nat => min i.2 (budget i.1) - 1) (a + 1) a
          (Entry.parseAll type n >>= fun others => pure (first :: others)) fun i =>
            Entry.parseAll (type' i.1) (i.2 - 1) >>= fun others => pure (first :: others) := by
        refine fun next => ((ih next).reindex (fun i : ι × Nat => (i.1, i.2 - 1)) (fun i => ?_)
          fun _ _ => rfl).bind fun _ _ => .pure _
        dsimp only
        omega
      refine .accept (.plain rfl (by simp)) hothers ?_
      refine .at? fun next => .ite (fun _ => hothers next) fun _ => ?_
      exact .stop fun _ _ => ⟨_, rfl, rfl⟩
    refine fun next => (hround next).reindex id (by simp) fun i hi => ?_
    rw [id, Nat.sub_add_cancel (by omega)]

/-- A parameter list is read again up to its parenthesis. -/
theorem echoes_parameters (allowDots eats : Bool) (a : Nat) :
    Echoes eats budget a a (parameters scope type allowDots) fun i =>
      parameters scope (type' i) allowDots := by
  refine fun _ => (EchoesAt.expect _ (.opening rfl)).bind fun _ next => ?_
  refine (Echoes.bounded (fun n => echoes_entries htype n a) next).bind fun entries => ?_
  exact echoes_resolve entries [] a

/-- A signature is read again. Whether it has results shows in the token behind its parameters. -/
theorem echoes_signature (eats : Bool) (a : Nat) :
    Echoes eats budget a a (signature scope type) fun i => signature scope (type' i) := by
  refine fun next => (echoes_parameters htype true eats a next).bind fun list => ?_
  refine .at? fun paren => Echoes.peek (fun next => .ite (fun _ => ?_) fun _ => ?_) paren
  · refine (echoes_parameters htype false false a next).bind fun results next => ?_
    exact (EchoesAt.pure _).bind fun _ _ => .pure _
  · refine .ite (fun _ => ?_) fun _ => (EchoesAt.pure _).bind fun _ _ => .pure _
    refine (htype false a next).bind fun result next => ?_
    exact (EchoesAt.pure _).bind fun _ _ => .pure _

end

/-! ### Interfaces -/

/-- What stands between braces is read again if its items are. -/
theorem echoes_braced {ι α : Type} {budget : ι → Nat} {item : Parser α} {item' : ι → Parser α}
    (hitem : ∀ a, Echoes true budget a a item item') (n : Nat) (a : Nat) :
    Echoes false (fun i : ι × Nat => min i.2 (budget i.1)) (a + 1) a (braced item n)
      fun i => braced (item' i.1) i.2 := by
  induction n with
  | zero => exact fun _ => .stop fun _ _ => ⟨_, rfl, rfl⟩
  | succ n ih =>
    -- only parsers with a round left are asked to read anything
    have hround : Echoes false (fun i : ι × Nat => min i.2 (budget i.1)) (a + 1) a
        (braced item (n + 1)) fun i => braced (item' i.1) (i.2 - 1 + 1) := by
      refine fun next => EchoesAt.skipSemicolons.bind fun _ =>
        .accept (.closing rfl) (fun _ => .pure _) ?_
      have hfirst : Echoes true (fun i : ι × Nat => min i.2 (budget i.1)) (a + 1) (a + 1)
          item fun i => item' i.1 := fun next =>
        (hitem (a + 1) next).reindex Prod.fst (by simp) fun _ _ => rfl
      refine fun next => ((hfirst next).eat fun first => ?_).weaken fun _ => rfl
      have hothers : Echoes false (fun i : ι × Nat => min i.2 (budget i.1) - 1) (a + 1) a
          (braced item n >>= fun others => pure (first :: others)) fun i =>
            braced (item' i.1) (i.2 - 1) >>= fun others => pure (first :: others) := by
        refine fun next => ((ih next).reindex (fun i : ι × Nat => (i.1, i.2 - 1)) (fun i => ?_)
          fun _ _ => rfl).bind fun _ _ => .pure _
        dsimp only
        omega
      refine .at? fun next => .ite (fun _ => hothers next) fun _ => ?_
      exact (EchoesAt.expect _ .semicolon).bind fun _ => hothers
    refine fun next => (hround next).reindex id (by simp) fun i hi => ?_
    rw [id, Nat.sub_add_cancel (by omega)]

/-- Reads an embedded element of an interface. -/
def embeddedElement (type : Parser GoType) : Parser Element := do
  let pos ← here
  let embedded ← type
  if ← Parser.at? .pipe then failAt pos .constraint
  return .embed embedded

/-- Reads an element of an interface that begins with a name, given the kind of the token behind the
name. -/
def elementBehindName (scope : Scope) (type : Parser GoType) (next : Option Kind) :
    Parser Element :=
  if next = some .leftParen then do
    let first ← name
    let signature ← signature scope type
    return .method ⟨first.text, signature⟩
  else embeddedElement type

/-- How an element is read depends on its first two tokens. -/
theorem element_eq (scope : Scope) (type : Parser GoType) :
    element scope type = Parser.peek 0 >>= fun next => Parser.peek 1 >>= fun second =>
      if next = some .identifier then elementBehindName scope type second
      else if next = some .tilde then fail .constraint else embeddedElement type := by
  rw [element]
  refine bind_congr fun next => bind_congr fun second => ?_
  rw [elementBehindName]
  split
  next => simp
  next => simp
  next htilde hmethod =>
    by_cases hfirst : next = some .identifier
    · have hsecond : second ≠ some .leftParen := fun h => hmethod hfirst h
      simp [hfirst, hsecond, embeddedElement]
    · have hsecond : next ≠ some .tilde := htilde
      simp [hfirst, hsecond, embeddedElement]

section

variable {ι : Type} {scope : Scope} {budget : ι → Nat} {type : Parser GoType}
  {type' : ι → Parser GoType} (htype : ∀ eats a, Echoes eats budget a a type type')

include htype

/-- One element of an interface is read again. -/
theorem echoes_element (a : Nat) :
    Echoes true budget a a (element scope type) fun i => element scope (type' i) := by
  have hembedded (next : Option Kind) : EchoesAt next true budget a a (embeddedElement type)
      fun i => embeddedElement (type' i) := by
    refine .here fun pos => (htype true a next).bind fun embedded => ?_
    refine .at? fun next => .ite (fun hnext => ?_) fun _ => .pure _
    obtain rfl : next = some .pipe := by simpa using hnext
    exact .giveUp (Shifts.plain rfl (by simp)).inside (by simp) (fun _ _ _ => rfl)
      fun _ _ _ _ => rfl
  simp only [element_eq]
  refine .peek fun next => ?_
  by_cases hname : next = some .identifier
  · subst hname
    simp only [reduceIte]
    refine .peekSecond fun n => .ite (fun _ => ?_) fun _ => hembedded _
    refine (EchoesAt.expect _ (.plain rfl (by simp))).bind fun first next => ?_
    exact (echoes_signature htype false a next).bind fun _ _ => .pure _
  · simp only [if_neg hname]
    by_cases htilde : next = some .tilde
    · subst htilde
      simp only [reduceIte]
      have hfail : EchoesAt (some .tilde) true budget a a (fail .constraint : Parser Element)
          fun _ => fail .constraint :=
        .giveUp (e := fun t => ⟨some t.pos, .constraint⟩) (Shifts.plain rfl (by simp)).inside
          (by simp) (fun _ _ _ => rfl) fun _ _ _ _ => rfl
      exact hfail.congr (fun _ _ => bind_of_ok rfl) fun _ _ _ => bind_of_ok rfl
    · simp only [if_neg htilde]
      exact (hembedded next).congr (fun _ _ => bind_of_ok rfl) fun _ _ _ => bind_of_ok rfl

/-- The body of an interface is read again up to its brace. -/
theorem echoes_interfaceBody (eats : Bool) (a : Nat) :
    Echoes eats budget a a (interfaceBody scope type) fun i => interfaceBody scope (type' i) := by
  refine fun _ => (EchoesAt.expect _ (.opening rfl)).bind fun _ next => ?_
  exact (Echoes.bounded (fun n => echoes_braced (echoes_element htype) n a) next).bind
    fun _ _ => .pure _

end

/-! ### Structs -/

section

variable {ι : Type} {budget : ι → Nat}

/-- A tag is read again, or none where none has been. -/
theorem echoes_tag (a : Nat) : Echoes false budget a a tag fun _ => tag := by
  intro next
  by_cases hnext : next = some .string
  · subst hnext
    have hread : EchoesAt (some .string) false budget a a
        (expect .string .field >>= fun t => pure (some t.text)) fun _ =>
          expect .string .field >>= fun t => pure (some t.text) :=
      (EchoesAt.expect _ (.plain rfl (by simp))).bind fun t _ => .pure _
    have htag (tokens : List Token) (htokens : nextKind tokens = some .string) :
        tag tokens = (expect .string .field >>= fun t => pure (some t.text)) tokens := by
      obtain ⟨t, rest, rfl, ht⟩ := exists_cons_of_nextKind htokens
      rw [tag, if_pos ht,
        bind_of_ok (show expect .string .field (t :: rest) = .ok ⟨t, [], rest⟩ from if_pos ht)]
      rfl
    exact hread.congr htag fun _ => htag
  · have htag (tokens : List Token) (htokens : nextKind tokens = next) :
        tag tokens = (pure none : Parser (Option String)) tokens := by
      cases tokens with
      | nil => rfl
      | cons t rest =>
        have ht : t.kind ≠ .string := by
          rintro h
          exact hnext (by simpa [nextKind, h, eq_comm] using htokens)
        rw [tag, if_neg ht]
        rfl
    exact (EchoesAt.pure none).congr htag fun _ => htag

/-- Names are read again. They shift no delimiters, and behind the last one no comma may follow. -/
theorem names_again {tokens : List Token} {parsed : Parsed (List Token)}
    (h : names tokens = .ok parsed) (a : Nat) :
    ∃ front, tokens = front ++ parsed.rest ∧ front ≠ [] ∧ Shifts a a (front.map Token.kind) ∧
      ∀ rest, nextKind rest = nextKind parsed.rest →
        names (front ++ rest) = .ok { parsed with rest := rest } := by
  have hname : Shifts a a [.identifier] := .plain rfl (by simp)
  obtain ⟨ts, rest, rfl, hnames⟩ := names_eq_ok.1 h
  suffices hfront : ∃ front, tokens = front ++ rest ∧ front ≠ [] ∧
      Shifts a a (front.map Token.kind) ∧ ∀ rest', nextKind rest' = nextKind rest →
        NameList (front ++ rest') ts rest' by
    obtain ⟨front, hsplit, hne, hshifts, hagain⟩ := hfront
    exact ⟨front, hsplit, hne, hshifts, fun rest' hrest =>
      names_eq_ok.2 ⟨ts, rest', rfl, hagain rest' hrest⟩⟩
  clear h
  induction hnames with
  | @last t rest ht hcomma =>
    exact ⟨[t], rfl, by simp, by simpa [ht] using hname, fun rest' hrest => .last ht (hrest ▸ hcomma)⟩
  | @more t comma tokens ts rest ht hcomma _ ih =>
    obtain ⟨front, rfl, -, hshifts, hagain⟩ := ih
    refine ⟨t :: comma :: front, rfl, by simp, ?_, fun rest' hrest => .more ht hcomma (hagain rest' hrest)⟩
    have hcommas : Shifts a a [t.kind, comma.kind] := by
      rw [ht, hcomma]
      exact hname.append (.plain rfl (by simp))
    exact hcommas.append hshifts

/-- A list of names is read again. -/
theorem echoes_names (eats : Bool) (a : Nat) :
    Echoes eats budget a a names fun _ => names := by
  intro next
  constructor
  · intro tokens parsed _ hok
    obtain ⟨front, heq, hfront, hshifts, hagain⟩ := names_again hok a
    exact ⟨front, heq, fun _ => hfront, .of_shifts hshifts, fun _ _ => hagain⟩
  · intro tokens e hnext herror hcause
    clear hnext
    exfalso
    fun_induction names tokens with
    | case1 t comma rest ht hcomma ih =>
      cases hmore : names rest with
      | error e' =>
        rw [hmore] at herror
        cases herror
        exact ih hmore
      | ok more =>
        rw [hmore] at herror
        cases herror
    | case2 | case4 => cases herror
    | case3 | case5 | case6 =>
      cases herror
      cases hcause

variable {type : Parser GoType} {type' : ι → Parser GoType}
  (htype : ∀ eats a, Echoes eats budget a a type type')

include htype

/-- One line of fields is read again. -/
theorem echoes_fields (a : Nat) :
    Echoes true budget a a (fields type) fun i => fields (type' i) := by
  have hembedded : Echoes true budget a a (embeddedField type) fun i => embeddedField (type' i) :=
    fun next => (htype true a next).bind fun _ next => (echoes_tag a next).bind fun _ _ => .pure _
  have hnamed : Echoes true budget a a (namedFields type) fun i => namedFields (type' i) :=
    fun next => (echoes_names true a next).bind fun _ next => (htype false a next).bind fun _ next =>
      (echoes_tag a next).bind fun _ _ => .pure _
  refine .peek fun next => ?_
  split
  next => exact hembedded _
  next => exact .peekSecond fun n => .ite (fun _ => hembedded _) fun _ => hnamed _
  next => exact .stop fun _ _ => ⟨_, rfl, rfl⟩

/-- The body of a struct is read again up to its brace. -/
theorem echoes_structBody (eats : Bool) (a : Nat) :
    Echoes eats budget a a (structBody type) fun i => structBody (type' i) := by
  refine fun _ => (EchoesAt.expect _ (.opening rfl)).bind fun _ next => ?_
  exact (Echoes.bounded (fun n => echoes_braced (echoes_fields htype) n a) next).bind
    fun _ _ => .pure _

end

/-! ### Array lengths -/

/-- The length of an array is found again in front of anything. -/
theorem lengthTokens_again {depth : Nat} {tokens inside rest : List Token}
    (h : lengthTokens depth tokens = some (inside, rest)) :
    ∃ t, t.kind = .rightBracket ∧ tokens = inside ++ t :: rest ∧
      ∀ rest', lengthTokens depth (inside ++ t :: rest') = some (inside, rest') := by
  induction tokens generalizing depth inside with
  | nil => cases h
  | cons t tokens ih =>
    rw [lengthTokens] at h
    split at h
    next hends =>
      cases h
      refine ⟨t, hends.1, rfl, fun rest' => ?_⟩
      rw [List.nil_append, lengthTokens, if_pos hends]
    next hgoes =>
      obtain ⟨⟨inner, behind⟩, hinner, heq⟩ := Option.map_eq_some_iff.1 h
      cases heq
      obtain ⟨u, hu, rfl, hagain⟩ := ih hinner
      refine ⟨u, hu, rfl, fun rest' => ?_⟩
      rw [List.cons_append, lengthTokens, if_neg hgoes]
      dsimp only
      rw [hagain rest']
      rfl

/-- The length of an array, between its brackets, is as balanced as tokens in step are. -/
theorem crosses_length {t u : Token} {inside rest : List Token} (ht : t.kind = .leftBracket)
    (hu : u.kind = .rightBracket) (h : lengthTokens 0 (inside ++ u :: rest) = some (inside, rest))
    (a : Nat) : Crosses a a (t :: (inside ++ [u])) rest := by
  have hshifts (hinside : Balanced (inside.map Token.kind)) :
      Shifts a a ((t :: (inside ++ [u])).map Token.kind) := by
    have hopens : Shifts a (a + 1) [t.kind] := .opening (by rw [ht]; rfl)
    have hcloses : Shifts (a + 1) a [u.kind] := .closing (by rw [hu]; rfl)
    simpa using hopens.append ((Shifts.of_balanced hinside).append hcloses)
  constructor
  · rintro (_ | ⟨t', us⟩) vs heq htidy
    · exact (Shifts.nil a).inside
    · obtain ⟨rfl, hsplit : inside ++ [u] = us ++ vs⟩ := List.cons_eq_cons.1 heq
      have hinside := htidy [] t us inside rest rfl ht (by
        rwa [← List.append_assoc, ← hsplit, List.append_assoc])
      refine @Inside.left _ _ (vs.map Token.kind) ?_
      rw [← List.map_append, List.cons_append, ← hsplit]
      exact (hshifts hinside).inside
  · intro htidy
    exact hshifts (htidy [] t (inside ++ [u]) inside rest rfl ht (by rwa [List.append_assoc]))

section

variable {ι : Type} {scope : Scope} {budget : ι → Nat} {a b : Nat} {α : Type}

/-- Brackets with or without a length between them. -/
theorem echoes_brackets {slice : Parser α} {array : String → Parser α} {slice' : ι → Parser α}
    {array' : ι → String → Parser α} {eats : Bool}
    (hslice : Echoes false (fun i => budget i - 1) a b slice slice')
    (harray : ∀ length, Echoes false (fun i => budget i - 1) a b (array length) fun i =>
      array' i length) :
    EchoesAt (some .leftBracket) eats budget a b
      (skip >>= fun _ => accept .rightBracket >>= fun b =>
        if b then slice else arrayLength >>= array) fun i =>
      skip >>= fun _ => accept .rightBracket >>= fun b =>
        if b then slice' i else arrayLength >>= array' i := by
  have hskip {f : Unit → Parser α} (t : Token) (rest : List Token) :
      (skip >>= f) (t :: rest) = f () rest := bind_of_ok rfl
  refine .pass (c := a) fun tokens hnext => ?_
  obtain ⟨t, tokens, rfl, ht⟩ := exists_cons_of_nextKind hnext
  by_cases hempty : nextKind tokens = some .rightBracket
  · obtain ⟨u, rest, rfl, hu⟩ := exists_cons_of_nextKind hempty
    have hopens : Shifts a (a + 1) [t.kind] := .opening (by rw [ht]; rfl)
    have hcloses : Shifts (a + 1) a [u.kind] := .closing (by rw [hu]; rfl)
    refine .inr ⟨[t, u], rest, slice, slice', rfl, by simp,
      .of_shifts (hopens.append hcloses), ?_, fun i rest' => ?_, hslice⟩
    · rw [hskip, bind_of_ok (accept_of_eq hu rest)]
      rfl
    · rw [List.cons_append, hskip, List.cons_append, bind_of_ok (accept_of_eq hu _)]
      rfl
  · rw [hskip, bind_of_ok (accept_of_ne hempty)]
    cases hlength : lengthTokens 0 tokens with
    | none =>
      refine .inl ⟨⟨none, .unexpectedEndInLength⟩, bind_eq_error.2 (.inl ?_), rfl⟩
      rw [arrayLength, hlength]
    | some found =>
      obtain ⟨inside, rest⟩ := found
      obtain ⟨u, hu, rfl, hagain⟩ := lengthTokens_again hlength
      have hread (rest' : List Token) := arrayLength_of_found (hagain rest')
      by_cases hbad : String.join (inside.map Token.text) = "" ∨
          String.join (inside.map Token.text) = "..."
      · refine .inl ⟨⟨rest.head?.map Token.pos,
          .expected .arrayLength (rest.head?.elim "EOF" Token.shown)⟩, ?_, rfl⟩
        refine bind_eq_error.2 (.inl ?_)
        rw [hread, if_pos hbad]
        rfl
      · have hne : nextKind (inside ++ u :: rest) ≠ some .rightBracket := hempty
        refine .inr ⟨t :: (inside ++ [u]), rest, array (String.join (inside.map Token.text)),
          fun i => array' i (String.join (inside.map Token.text)), by simp, by simp,
          crosses_length ht hu hlength a, ?_, fun i rest' => ?_, harray _⟩
        · exact bind_of_ok (by rw [hread, if_neg hbad])
        · have hne' : nextKind (inside ++ u :: rest') ≠ some .rightBracket := by
            rwa [nextKind_append_congr (show nextKind (u :: rest') = nextKind (u :: rest) from rfl)]
          rw [List.cons_append, hskip, List.append_assoc, List.singleton_append,
            bind_of_ok (accept_of_ne hne')]
          exact bind_of_ok (by rw [hread, if_neg hbad])

/-! ### Types -/

/-- **A type is read again**, wherever its words stand, by a reader with enough levels. -/
theorem echoes_typeWithin (n : Nat) (eats : Bool) (a : Nat) :
    Echoes eats (fun m => m) a a (typeWithin scope n) fun m => typeWithin scope m := by
  induction n generalizing eats a with
  | zero => exact fun _ => .stop fun _ _ => ⟨_, rfl, rfl⟩
  | succ n ih =>
    have hinner (eats : Bool) (a : Nat) : Echoes eats (fun m => m - 1) a a (typeWithin scope n)
        fun m => typeWithin scope (m - 1) := fun next =>
      (ih eats a next).reindex (fun m => m - 1) (by simp) fun _ _ => rfl
    have hone (wrap : GoType → GoType) : Echoes false (fun m => m - 1) a a
        (typeWithin scope n >>= fun t => pure (wrap t)) fun m =>
          typeWithin scope (m - 1) >>= fun t => pure (wrap t) := fun next =>
      (hinner false a next).bind fun _ _ => .pure _
    -- only readers with a level left are asked to read anything
    have hlevel : Echoes eats (fun m => m) a a (typeWithin scope (n + 1)) fun m =>
        typeWithin scope (m - 1 + 1) := by
      refine .peek fun next => ?_
      split
      next => exact echoes_typeName eats a _
      next => exact .skip (.plain rfl (by simp)) (hone .pointer)
      next => exact echoes_brackets (hone .slice) fun length => hone (.array length)
      next =>
        refine .skip (.plain rfl (by simp)) fun _ =>
          (EchoesAt.expect _ (.opening rfl)).bind fun _ next => ?_
        refine (hinner false (a + 1) next).bind fun key _ =>
          (EchoesAt.expect _ (.closing rfl)).bind fun _ => ?_
        exact hone (.map key)
      next =>
        exact .skip (.plain rfl (by simp)) (.accept (.plain rfl (by simp)) (hone (.chan .send)) (hone (.chan .both)))
      next =>
        exact .skip (.plain rfl (by simp)) fun _ =>
          (EchoesAt.expect _ (.plain rfl (by simp))).bind fun _ => hone (.chan .receive)
      next =>
        exact .skip (.plain rfl (by simp)) fun next =>
          (echoes_signature hinner false a next).bind fun _ _ => .pure _
      next =>
        exact .skip (.plain rfl (by simp)) fun next =>
          (echoes_interfaceBody hinner false a next).bind fun _ _ => .pure _
      next =>
        exact .skip (.plain rfl (by simp)) fun next =>
          (echoes_structBody hinner false a next).bind fun _ _ => .pure _
      next =>
        refine .skip (.opening rfl) fun next => (hinner false (a + 1) next).bind fun inner _ => ?_
        exact (EchoesAt.expect _ (.closing rfl)).bind fun _ _ => .pure _
      next => exact .stop fun _ _ => ⟨_, rfl, rfl⟩
    refine fun next => (hlevel next).reindex id (by simp) fun m hm => ?_
    rw [id, Nat.sub_add_cancel hm]

end

section

variable {ι : Type} {scope : Scope} {budget : ι → Nat}

/-- **Types are read again**, whatever the budget for their depth was. -/
theorem echoes_typeExpr (eats : Bool) (a : Nat) :
    Echoes eats budget a a (typeExpr scope) fun _ => typeExpr scope :=
  .bounded fun n next => (echoes_typeWithin n eats a next).reindex Prod.snd
    (fun _ => Nat.min_le_left _ _) fun _ _ => rfl

/-- What is declared behind the name of a type is read again. -/
theorem echoes_typeDefinition (eats : Bool) (a : Nat) :
    Echoes eats budget a a (typeDefinition scope) fun _ => typeDefinition scope :=
  .accept (.plain rfl (by simp)) (fun next => (echoes_typeExpr false a next).bind fun _ _ => .pure _)
    fun next => (echoes_typeExpr eats a next).bind fun _ _ => .pure _

end

end Multicast.Syntax
