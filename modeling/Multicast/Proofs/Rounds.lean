import Multicast.Proofs.TypesAgain

/-!
# Reading a file in rounds

The declarations of a file are read by a loop with another loop in it, the one for the specs of a
group of types. Both together are a machine that goes from one declaration or spec to the next
(`round`). Its stages say where it stands, and so what may come there; a terminator, a parenthesis
that opens a group of types and one that closes it take rounds of their own. The loops and the machine
read alike (`declarations_eq_rounds`).
-/

namespace Multicast.Syntax

open Source Multicast.Syntax.Parser

/-! ### Parsers one after the other -/

namespace Parser

instance : LawfulMonad Parser :=
  .mk' Parser
    (fun p => by
      funext tokens
      change (p >>= fun a => pure (id a)) tokens = p tokens
      cases h : p tokens with
      | error e => exact bind_eq_error.2 (.inl h)
      | ok parsed => exact bind_eq_ok.2 ⟨parsed, _, h, rfl, by simp⟩)
    (fun _ _ => funext fun _ => bind_of_ok rfl)
    fun p f g => by
      funext tokens
      cases hall : (p >>= f >>= g) tokens with
      | error e =>
        symm
        simp only [bind_eq_error, bind_eq_ok] at hall ⊢
        rcases hall with (h | ⟨first, hfirst, h⟩) | ⟨_, ⟨first, second, hfirst, hsecond, rfl⟩, h⟩
        · exact .inl h
        · exact .inr ⟨first, hfirst, .inl h⟩
        · exact .inr ⟨first, hfirst, .inr ⟨second, hsecond, h⟩⟩
      | ok parsed =>
        symm
        simp only [bind_eq_ok] at hall ⊢
        obtain ⟨_, third, ⟨first, second, hfirst, hsecond, rfl⟩, hthird, rfl⟩ := hall
        exact ⟨first, _, hfirst, ⟨second, third, hsecond, hthird, rfl⟩, by simp⟩

end Parser

/-! ### The machine -/

/-- Where the reader of declarations stands. -/
inductive Stage
  /-- Where a declaration may begin. -/
  | file
  /-- Where a spec of a group of types may begin. -/
  | group
  /-- Behind a spec, which has to be ended, or behind a group. -/
  | behind (grouped : Bool)
  /-- Behind a declaration that was skipped up to its end. -/
  | skipped
  deriving DecidableEq

/-- Whether the file may end at a stage. -/
def Stage.mayEnd : Stage → Bool
  | file | behind false | skipped => true
  | group | behind true => false

section

variable (scope : Scope)

/-- Reads a name and the type that it declares, but not what ends the spec. -/
def declaredType : Parser Declaration := do
  let declared ← name
  let kind ← typeKind scope
  return ⟨⟨declared.text, kind⟩, declared.pos⟩

/-- Reads a function declaration behind its keyword, but not what ends it. -/
def funcHead : Parser (List Declaration) := do
  let isMethod ← receiver
  let declared ← name
  skipToEnd
  return if isMethod || declared.text = "_" || declared.text = "init" then []
    else [⟨⟨declared.text, .func⟩, declared.pos⟩]

/-- Reads declared variables or constants, but not what ends their declaration. -/
def valueHead (kind : ObjectKind) : Parser (List Declaration) := do
  let declared ← names
  skipToEnd
  return (declared.filter (·.text ≠ "_")).map fun t => ⟨⟨t.text, kind⟩, t.pos⟩

/-- Reads variables or constants behind their keyword, and tells where it stands then. -/
def values (kind : ObjectKind) : Parser (List Declaration × Stage) := do
  if ← accept .leftParen then
    let specs ← bounded (groupRest (valueSpec kind))
    return (specs.flatten, .behind false)
  return (← valueHead kind, .skipped)

/-- A round that begins with a token of a kind: what is declared in it, and where the reader stands
behind it. -/
def roundFrom : Stage → Kind → Parser (List Declaration × Stage)
  | .file, .semicolon => do
    skip
    return ([], .file)
  | .file, .keyword .typeKw => do
    skip
    if ← accept .leftParen then return ([], .group)
    return ([← declaredType scope], .behind false)
  | .file, .keyword .funcKw => do
    skip
    return (← funcHead, .skipped)
  | .file, .keyword .varKw => do
    skip
    values .var
  | .file, .keyword .constKw => do
    skip
    values .const
  | .file, .keyword .importKw => fail .lateImport
  | .file, _ => fail .notADeclaration
  | .group, .semicolon => do
    skip
    return ([], .group)
  | .group, .rightParen => do
    skip
    return ([], .behind false)
  | .group, _ => return ([← declaredType scope], .behind true)
  | .behind grouped, .semicolon => do
    skip
    return ([], if grouped then .group else .file)
  | .behind true, .rightParen => do
    skip
    return ([], .behind false)
  | .behind _, _ => wanted .semicolon
  | .skipped, .semicolon => do
    skip
    return ([], .file)
  | .skipped, _ => fail .notADeclaration

/-- **One round.** -/
def round (s : Stage) : Parser (List Declaration × Stage) := do
  match ← peek 0 with
  | some kind => roundFrom scope s kind
  | none => wanted .rightParen

/-- Reads in rounds up to the end of the file. -/
def rounds : Nat → Stage → Parser (List Declaration)
  | 0, _ => return []
  | n + 1, s => do
    let next ← peek 0
    if next.isNone && s.mayEnd then return []
    let first ← round scope s
    return first.1 ++ (← rounds n first.2)

/-- Reads on from a stage as the loops do, with budgets for both of them. -/
def resume (k n : Nat) : Stage → Parser (List Declaration)
  | .file => declarations scope n
  | .group => do
    let specs ← groupRest (typeSpec scope true) k
    specEnd false
    return specs ++ (← declarations scope n)
  | .behind false => do
    specEnd false
    declarations scope n
  | .behind true => do
    specEnd true
    let specs ← groupRest (typeSpec scope true) k
    specEnd false
    return specs ++ (← declarations scope n)
  | .skipped => do
    let _ ← accept .semicolon
    declarations scope n

end

/-! ### The machine and the loops -/

section

variable {scope : Scope}

/-- The spec of a type is its declaration and what ends it. -/
theorem typeSpec_eq (grouped : Bool) : typeSpec scope grouped =
    declaredType scope >>= fun d => specEnd grouped >>= fun _ => pure d := by
  simp only [typeSpec, declaredType, bind_assoc, pure_bind]

/-- A function declaration is its head, and the semicolon behind what was skipped. -/
theorem funcDeclaration_eq :
    funcDeclaration = funcHead >>= fun ds => accept .semicolon >>= fun _ => pure ds := by
  simp only [funcDeclaration, funcHead, skipDeclaration, bind_assoc, pure_bind]
  refine bind_congr fun isMethod => bind_congr fun declared => ?_
  refine bind_congr fun _ => bind_congr fun _ => ?_
  split <;> rfl

/-- The spec of a value is its head, and the semicolon behind what was skipped. -/
theorem valueSpec_eq (kind : ObjectKind) :
    valueSpec kind = valueHead kind >>= fun ds => accept .semicolon >>= fun _ => pure ds := by
  have hassoc {β : Type} (f : List Token → Parser (List Declaration))
      (g : List Declaration → Parser β) :
      (names : Parser (List Token)) >>= f >>= g = (names : Parser (List Token)) >>= fun x => f x >>= g :=
    bind_assoc (m := Parser) names f g
  rw [valueSpec, valueHead, hassoc]
  simp only [skipDeclaration, bind_assoc, pure_bind]

/-- The kind of the next token decides what a round reads. -/
theorem round_of_nextKind {kind : Kind} {tokens : List Token} (s : Stage)
    (h : nextKind tokens = some kind) : round scope s tokens = roundFrom scope s kind tokens := by
  rw [nextKind, List.head?_eq_getElem?] at h
  refine (bind_of_ok (b := some kind) ?_).trans rfl
  rw [peek, h]

/-- Where there is a token, the machine makes one round and goes on from its stage. -/
theorem rounds_cons (n : Nat) (s : Stage) (t : Token) (rest : List Token) :
    rounds scope (n + 1) s (t :: rest) =
      (round scope s >>= fun first => rounds scope n first.2 >>= fun more =>
        pure (first.1 ++ more)) (t :: rest) := by
  rw [rounds, bind_of_ok (show peek 0 (t :: rest) = .ok ⟨some t.kind, [], t :: rest⟩ from rfl)]
  rfl

end

/-! ### Ends of declarations -/

/-- Whether a declaration ends before a token of this kind, or at the end of the file. -/
def EndsDeclaration (next : Option Kind) : Prop :=
  ∀ kind ∈ next, kind = .semicolon ∨ kind.isClosing = true

/-- **What is skipped is found by counting delimiters.** -/
theorem skipNested_eq_ok_iff {depth : Nat} {tokens rest : List Token} :
    skipNested depth tokens = .ok rest ↔ ∃ body, tokens = body ++ rest ∧
      nest depth (body.map Token.kind) = some 0 ∧ EndsDeclaration (nextKind rest) := by
  constructor
  · intro h
    -- the induction is on the tokens, since the depth goes up and down
    induction tokens generalizing depth with
    | nil =>
      cases depth <;> cases h
      exact ⟨[], rfl, rfl, by simp [EndsDeclaration, nextKind]⟩
    | cons t tokens ih =>
      cases depth with
      | zero =>
        rw [skipNested] at h
        split at h
        next hends =>
          cases h
          exact ⟨[], rfl, rfl, by simpa [EndsDeclaration, nextKind] using hends⟩
        next hgoes =>
          obtain ⟨body, rfl, hbody, hrest⟩ := ih h
          exact ⟨t :: body, rfl, by rw [List.map_cons, nest, if_neg hgoes, hbody], hrest⟩
      | succ depth =>
        rw [skipNested] at h
        split at h
        next hopens =>
          obtain ⟨body, rfl, hbody, hrest⟩ := ih h
          exact ⟨t :: body, rfl, by rw [List.map_cons, nest, if_pos hopens, hbody], hrest⟩
        next hopens =>
          split at h
          next hcloses =>
            obtain ⟨body, rfl, hbody, hrest⟩ := ih h
            exact ⟨t :: body, rfl,
              by rw [List.map_cons, nest, if_neg hopens, if_pos hcloses, hbody], hrest⟩
          next hcloses =>
            obtain ⟨body, rfl, hbody, hrest⟩ := ih h
            exact ⟨t :: body, rfl,
              by rw [List.map_cons, nest, if_neg hopens, if_neg hcloses, hbody], hrest⟩
  -- counting takes the reader over the body, and at depth zero the next token stops it
  · rintro ⟨body, rfl, hbody, hrest⟩
    rw [skipNested_append hbody]
    cases rest with
    | nil => rfl
    | cons t rest =>
      rw [skipNested, if_pos]
      simpa [EndsDeclaration, nextKind] using hrest

/-- Skipping fails where the tokens end inside delimiters, and never for something it cannot
describe. -/
theorem skipNested_fails {depth : Nat} {tokens : List Token} {e : Failure}
    (h : skipNested depth tokens = .error e) : e.cause.isUnsupported = false := by
  induction tokens generalizing depth with
  | nil =>
    cases depth <;> cases h
    rfl
  | cons t tokens ih =>
    cases depth with
    | zero =>
      rw [skipNested] at h
      split at h
      · cases h
      · exact ih h
    | succ depth =>
      rw [skipNested] at h
      split at h
      · exact ih h
      · split at h <;> exact ih h

/-- Delimiters that are open around some words stay open behind them. -/
theorem nest_add {depth behind : Nat} {ks : List Kind} (h : nest depth ks = some behind) (d : Nat) :
    nest (depth + d) ks = some (behind + d) := by
  induction d with
  | zero => exact h
  | succ d ih => exact nest_succ ih

/-- Words that are skipped at the front of a declaration shift nothing. -/
theorem Shifts.of_nest {ks : List Kind} (h : nest 0 ks = some 0) (a : Nat) : Shifts a a ks :=
  fun d => by simpa using nest_add h (a + d)

/-- Skipping to the end of a declaration leaves what `skipNested` leaves, and mentions nothing. -/
theorem skipToEnd_eq_ok_iff {tokens : List Token} {parsed : Parsed Unit} :
    skipToEnd tokens = .ok parsed ↔
      ∃ rest, skipNested 0 tokens = .ok rest ∧ parsed = ⟨(), [], rest⟩ := by
  rw [skipToEnd]
  cases skipNested 0 tokens with
  | error e => simp [Bind.bind, Except.bind]
  | ok rest => simp [Bind.bind, Except.bind, Pure.pure, Except.pure, eq_comm]

section

variable {ι α : Type} {budget : ι → Nat}

/-- What is skipped is skipped again, since all that counts is how its delimiters nest. -/
theorem echoes_skipToEnd (a : Nat) :
    Echoes false budget a a skipToEnd fun _ => skipToEnd := by
  intro next
  constructor
  · intro tokens parsed _ hok
    obtain ⟨rest, hskip, rfl⟩ := skipToEnd_eq_ok_iff.1 hok
    obtain ⟨body, rfl, hbody, hends⟩ := skipNested_eq_ok_iff.1 hskip
    -- the body nests in itself, so it may be read again at any depth
    refine ⟨body, rfl, by simp, .of_shifts (.of_nest hbody a), fun _ _ rest' hrest => ?_⟩
    refine skipToEnd_eq_ok_iff.2 ⟨rest', skipNested_eq_ok_iff.2 ⟨body, rfl, hbody, ?_⟩, rfl⟩
    rwa [hrest]
  · intro tokens e _ herror hcause
    rw [skipToEnd] at herror
    cases hskip : skipNested 0 tokens with
    | ok rest => rw [hskip] at herror; cases herror
    | error e' =>
      rw [hskip] at herror
      cases herror
      rw [skipNested_fails hskip] at hcause
      cases hcause

/-- What ends a declaration, where delimiters are open. -/
theorem echoes_specEnd (grouped : Bool) (a : Nat) :
    Echoes false budget (a + 1) (a + 1) (specEnd grouped) fun _ => specEnd grouped := by
  refine .peek fun next => ?_
  split
  next => exact .step .semicolon (fun _ _ _ => rfl) (fun _ _ _ _ => rfl) fun _ => .pure ()
  next =>
    cases grouped with
    | false => exact .stop fun _ _ => ⟨_, rfl, rfl⟩
    | true => exact .pure ()
  next => exact .pure ()
  next => exact .stop fun _ _ => ⟨_, rfl, rfl⟩

/-- The specs of a group are read again if each of them is. -/
theorem echoes_groupRest {spec : Parser α}
    (hspec : ∀ a, Echoes true budget (a + 1) (a + 1) spec fun _ => spec) (n a : Nat) :
    Echoes false (fun i : ι × Nat => min i.2 (budget i.1)) (a + 1) a (groupRest spec n)
      fun i => groupRest spec i.2 := by
  induction n with
  | zero => exact fun _ => .stop fun _ _ => ⟨_, rfl, rfl⟩
  | succ n ih =>
    -- only parsers with a round left are asked to read anything
    have hround : Echoes false (fun i : ι × Nat => min i.2 (budget i.1)) (a + 1) a
        (groupRest spec (n + 1)) fun i => groupRest spec (i.2 - 1 + 1) := by
      refine fun next => EchoesAt.skipSemicolons.bind fun _ =>
        .accept (.closing rfl) (fun _ => .pure _) (.peek fun next => ?_)
      have hfirst : EchoesAt next true (fun i : ι × Nat => min i.2 (budget i.1)) (a + 1) (a + 1)
          spec fun _ => spec :=
        (hspec a next).reindex Prod.fst (by simp) fun _ _ => rfl
      refine .ite (fun _ => .stop fun _ _ => ⟨_, rfl, rfl⟩) fun _ => ?_
      refine (hfirst.eat fun first next => ?_).weaken fun _ => rfl
      refine ((ih next).reindex (fun i : ι × Nat => (i.1, i.2 - 1)) (fun i => ?_)
        fun _ _ => rfl).bind fun _ _ => .pure _
      dsimp only
      omega
    -- the round that was left out of the budget is put back
    refine fun next => (hround next).reindex id (by simp) fun i hi => ?_
    rw [id, Nat.sub_add_cancel (by omega)]

/-- Names, and what is skipped behind them, are read again. -/
theorem echoes_valueHead (kind : ObjectKind) (eats : Bool) (a : Nat) :
    Echoes eats budget a a (valueHead kind) fun _ => valueHead kind := fun next =>
  (echoes_names eats a next).bind fun _ next => (echoes_skipToEnd a next).bind fun _ _ => .pure _

/-- One spec of a group of values is read again inside the group. -/
theorem echoes_valueSpec (kind : ObjectKind) (a : Nat) :
    Echoes true budget (a + 1) (a + 1) (valueSpec kind) fun _ => valueSpec kind := by
  rw [valueSpec_eq]
  exact fun next => (echoes_valueHead kind true _ next).bind fun _ =>
    .accept .semicolon (fun _ => .pure _) fun _ => .pure _

/-- A group of values is read again up to the parenthesis that closes it. -/
theorem echoes_valueGroup (kind : ObjectKind) (a : Nat) :
    Echoes false budget (a + 1) a (bounded (groupRest (valueSpec kind))) fun _ =>
      bounded (groupRest (valueSpec kind)) :=
  .bounded fun n => echoes_groupRest (echoes_valueSpec kind) n a

/-- Values are read again, in a group or alone. -/
theorem echoes_values (kind : ObjectKind) (a : Nat) :
    Echoes true budget a a (values kind) fun _ => values kind := by
  refine .accept (.opening rfl) (fun next => ?_) fun next => ?_
  · exact (echoes_valueGroup kind a next).bind fun _ _ => .pure _
  · exact (echoes_valueHead kind true a next).bind fun _ _ => .pure _

end

/-! ### Rounds are read again -/

namespace Parser

variable {α β : Type}

/-- **A parser reads its words again**, in front of anything that begins like what has followed them. -/
def Again (p : Parser α) : Prop :=
  ∀ tokens parsed, p tokens = .ok parsed → ∃ front, tokens = front ++ parsed.rest ∧
    ∀ rest, nextKind rest = nextKind parsed.rest →
      p (front ++ rest) = .ok { parsed with rest := rest }

namespace Again

/-- What is read behind something that is read again sees the same next token, and so is read again
too. -/
theorem bind {p : Parser α} {f : α → Parser β} (hp : p.Again) (hf : ∀ x, (f x).Again) :
    (p >>= f).Again := by
  intro tokens parsed h
  obtain ⟨first, second, hfirst, hsecond, rfl⟩ := bind_eq_ok.1 h
  obtain ⟨us, rfl, hagain⟩ := hp _ _ hfirst
  obtain ⟨vs, hsplit, hagain'⟩ := hf _ _ _ hsecond
  refine ⟨us ++ vs, by rw [List.append_assoc, ← hsplit], fun rest hrest => ?_⟩
  have hnext : nextKind (vs ++ rest) = nextKind first.rest := by
    rw [hsplit]
    exact nextKind_append_congr hrest vs
  rw [List.append_assoc]
  exact bind_eq_ok.2 ⟨_, _, hagain _ hnext, hagain' rest hrest, rfl⟩

theorem pure (x : α) : (Pure.pure x : Parser α).Again := by
  intro tokens parsed h
  cases h
  exact ⟨[], rfl, fun _ _ => rfl⟩

/-- What is read again at any depth of delimiters is read again. -/
theorem of_echoes {eats : Bool} {a b : Nat} {p : Parser α}
    (h : Echoes eats (fun n : Nat => n) a b p fun _ => p) : p.Again := by
  intro tokens parsed hok
  obtain ⟨front, rfl, -, -, hagain⟩ := (h _).reads rfl hok
  exact ⟨front, rfl, hagain (front.length + 1) (Nat.lt_succ_self _)⟩

end Again

end Parser

/-- A receiver is skipped by counting parentheses, and what stands behind the last one does not
matter. -/
theorem skipParens_again {depth : Nat} {tokens rest : List Token}
    (h : skipParens depth tokens = .ok rest) :
    ∃ front, tokens = front ++ rest ∧ ∀ rest', skipParens depth (front ++ rest') = .ok rest' := by
  induction tokens generalizing depth with
  | nil => cases h
  | cons t tokens ih =>
    rw [skipParens.eq_def] at h
    dsimp only at h
    -- a parenthesis counts up or down, and any other token leaves the count as it is
    split at h
    next hopens =>
      obtain ⟨front, rfl, hagain⟩ := ih h
      refine ⟨t :: front, rfl, fun rest' => ?_⟩
      rw [List.cons_append, skipParens.eq_def]
      dsimp only
      rw [if_pos hopens, hagain]
    next hopens =>
      split at h
      next hcloses =>
        cases depth with
        | zero =>
          cases h
          exact ⟨[t], rfl, fun rest' => by simp [skipParens, hcloses]⟩
        | succ depth =>
          obtain ⟨front, rfl, hagain⟩ := ih h
          refine ⟨t :: front, rfl, fun rest' => ?_⟩
          rw [List.cons_append, skipParens, if_neg hopens, if_pos hcloses, hagain]
      next hcloses =>
        obtain ⟨front, rfl, hagain⟩ := ih h
        refine ⟨t :: front, rfl, fun rest' => ?_⟩
        rw [List.cons_append, skipParens.eq_def]
        dsimp only
        rw [if_neg hopens, if_neg hcloses, hagain]

/-- Whether a function has a receiver shows in the next token. -/
theorem again_receiver : receiver.Again := by
  intro tokens parsed h
  rcases tokens with _ | ⟨t, tokens⟩
  -- at the end of the tokens there is no receiver, nor in front of anything else that is at an end
  · cases h
    refine ⟨[], rfl, fun rest hrest => ?_⟩
    cases rest with
    | nil => rfl
    | cons => cases hrest
  · rw [receiver] at h
    split at h
    next ht =>
      cases hskip : skipParens 0 tokens with
      | error e => rw [hskip] at h; cases h
      | ok behind =>
        rw [hskip] at h
        cases h
        obtain ⟨front, rfl, hagain⟩ := skipParens_again hskip
        refine ⟨t :: front, rfl, fun rest _ => ?_⟩
        rw [List.cons_append, receiver, if_pos ht, hagain]
        rfl
    next ht =>
      cases h
      refine ⟨[], rfl, fun rest hrest => ?_⟩
      cases rest with
      | nil => cases hrest
      | cons u rest =>
        have hu : u.kind ≠ .leftParen := by
          have heq : u.kind = t.kind := by simpa [nextKind] using hrest
          rwa [heq]
        rw [List.nil_append, receiver, if_neg hu]

/-- The head of a function declaration is read again. -/
theorem again_funcHead : funcHead.Again := by
  have hechoes : Echoes true (fun n : Nat => n) 0 0 name fun _ => name := fun _ =>
    .expect _ (.plain rfl (by simp))
  have hname : Again name := .of_echoes hechoes
  refine again_receiver.bind fun isMethod => hname.bind fun declared => ?_
  exact (Again.of_echoes (echoes_skipToEnd 0)).bind fun _ => .pure _

/-! ### Types are declared again -/

section

variable {scope : Scope}

/-- Whether a declared type is generic shows before the token behind what ends it. -/
theorem isGeneric_append_congr {body rest rest' : List Token} (hrest : EndsDeclaration (nextKind rest))
    (hnext : nextKind rest' = nextKind rest) : isGeneric (body ++ rest') = isGeneric (body ++ rest) := by
  have hplain {t : Token} {ts : List Token} (h : EndsDeclaration (nextKind (t :: ts))) :
      t.kind ≠ .leftBracket ∧ t.kind ≠ .identifier := by
    rcases h t.kind rfl with h | h <;> constructor <;> rintro heq <;> rw [heq] at h <;> cases h
  have hnone {ts : List Token} (h : EndsDeclaration (nextKind ts)) : isGeneric ts = false := by
    rcases ts with _ | ⟨t, _ | ⟨u, ts⟩⟩
    · rfl
    · rfl
    · simp [isGeneric, hplain h]
  have hone (t : Token) {ts : List Token} (h : EndsDeclaration (nextKind ts)) :
      isGeneric (t :: ts) = false := by
    rcases ts with _ | ⟨u, ts⟩
    · rfl
    · simp [isGeneric, hplain h]
  have hrest' : EndsDeclaration (nextKind rest') := hnext ▸ hrest
  -- three tokens are looked at, so it depends on how many of them the body has
  match body with
  | [] => rw [List.nil_append, List.nil_append, hnone hrest, hnone hrest']
  | [t] => rw [List.singleton_append, List.singleton_append, hone t hrest, hone t hrest']
  | [t, u] =>
    change (_ && _ && nextKind rest' != _) = (_ && _ && nextKind rest != _)
    rw [hnext]
  | t :: u :: v :: body => rfl

/-- Where an attempt to read a declared type has been given up, its declaration has not ended. -/
theorem suffix_of_enters {front behind body rest : List Token} (hsplit : front ++ behind = body ++ rest)
    (henters : Enters 0 front behind) (hbody : nest 0 (body.map Token.kind) = some 0)
    (hrest : EndsDeclaration (nextKind rest)) (htidy : Tidy body rest) :
    ∃ more, body = front ++ more := by
  rcases List.append_eq_append_iff.1 hsplit with ⟨more, rfl, -⟩ | ⟨more, rfl, rfl⟩
  · exact ⟨more, rfl⟩
  · cases more with
    | nil => exact ⟨[], by simp⟩
    | cons t more =>
      -- otherwise the token that ends the declaration has been read
      exfalso
      have hends := hrest t.kind rfl
      have htidy' : Tidy (body ++ [t]) (more ++ behind) := by
        intro us u vs inside rest' heq hu hlength
        rcases List.eq_nil_or_concat vs with rfl | ⟨vs, last, rfl⟩
        · obtain ⟨-, hlast⟩ := List.append_inj' heq rfl
          rw [(List.cons_eq_cons.1 hlast).1] at hends
          simp [hu, Kind.isClosing] at hends
        · rw [List.concat_eq_append, ← List.cons_append, ← List.append_assoc] at heq
          obtain ⟨hus, hlast⟩ := List.append_inj' heq rfl
          refine htidy us u vs inside rest' hus hu ?_
          rw [← hlength, ← (List.cons_eq_cons.1 hlast).1]
          simp
      obtain ⟨e, he⟩ := henters (body ++ [t]) more (by simp) htidy' 0
      rw [List.map_append, nest_append, Nat.add_zero, hbody] at he
      simp [nest, hends] at he

/-- What it takes to read what a name declares. -/
theorem typeKind_eq_ok_iff {tokens : List Token} {parsed : Parsed ObjectKind} :
    typeKind scope tokens = .ok parsed ↔
      (isGeneric tokens = false ∧ typeDefinition scope tokens = .ok parsed) ∨
      ∃ reason rest, skipNested 0 tokens = .ok rest ∧ parsed = ⟨.unsupported reason, [], rest⟩ ∧
        ((isGeneric tokens = true ∧ reason = genericReason) ∨
          (isGeneric tokens = false ∧ ∃ e, typeDefinition scope tokens = .error e ∧
            e.cause.isUnsupported = true ∧ reason = e.cause.message)) := by
  have hskip (reason : String) : unsupported reason tokens = .ok parsed ↔
      ∃ rest, skipNested 0 tokens = .ok rest ∧ parsed = ⟨.unsupported reason, [], rest⟩ := by
    rw [unsupported, bind_eq_ok]
    simp only [skipToEnd_eq_ok_iff]
    constructor
    · rintro ⟨_, second, ⟨rest, hrest, rfl⟩, hpure, rfl⟩
      cases hpure
      exact ⟨rest, hrest, rfl⟩
    · rintro ⟨rest, hrest, rfl⟩
      exact ⟨_, _, ⟨rest, hrest, rfl⟩, rfl, rfl⟩
  -- a generic type is skipped at once, another one after an attempt that cannot describe it
  rw [typeKind]
  cases hgeneric : isGeneric tokens with
  | true => simp [hskip]
  | false =>
    cases hread : typeDefinition scope tokens with
    | ok parsed => simp
    | error e =>
      cases hcause : e.cause.isUnsupported with
      | true => simp [hskip, hcause]
      | false => simp [hcause]

/-- A type definition that is read declares a type. -/
theorem typeDefinition_eq_ok {tokens : List Token} {parsed : Parsed ObjectKind}
    (h : typeDefinition scope tokens = .ok parsed) : ∃ t isAlias, parsed.value = .type t isAlias := by
  obtain ⟨_, _, -, hrest, rfl⟩ := bind_eq_ok.1 h
  obtain ⟨_, -, rfl⟩ := bind_pure_eq_ok.1 hrest
  exact ⟨_, _, rfl⟩

/-- **What a name declares is read again**, in front of anything that begins alike, if a type that
cannot be described has its delimiters in step. -/
theorem typeKind_again {tokens : List Token} {parsed : Parsed ObjectKind}
    (h : typeKind scope tokens = .ok parsed) :
    ∃ body, tokens = body ++ parsed.rest ∧ (EndsDeclaration (nextKind parsed.rest) →
      (∀ reason, parsed.value = .unsupported reason → Tidy body parsed.rest) →
        ∀ rest, nextKind rest = nextKind parsed.rest →
          typeKind scope (body ++ rest) = .ok { parsed with rest := rest }) := by
  have hechoes : Echoes false (fun n : Nat => n) 0 0 (typeDefinition scope) fun _ =>
      typeDefinition scope := echoes_typeDefinition false 0
  rcases typeKind_eq_ok_iff.1 h with ⟨hgeneric, hread⟩ | ⟨reason, rest, hskip, rfl, hreason⟩
  · obtain ⟨body, rfl, -, -, hagain⟩ :=
      (hechoes _).reads rfl hread
    refine ⟨body, rfl, fun hends _ rest hrest => typeKind_eq_ok_iff.2 (.inl ⟨?_, ?_⟩)⟩
    · rwa [isGeneric_append_congr hends hrest]
    · exact hagain _ (Nat.lt_succ_self _) rest hrest
  · obtain ⟨body, rfl, hbody, hends⟩ := skipNested_eq_ok_iff.1 hskip
    refine ⟨body, rfl, fun _ htidy rest' hrest => typeKind_eq_ok_iff.2 (.inr ?_)⟩
    refine ⟨reason, rest', skipNested_eq_ok_iff.2 ⟨body, rfl, hbody, hrest ▸ hends⟩, rfl, ?_⟩
    rw [isGeneric_append_congr hends hrest]
    refine hreason.imp id fun ⟨hgeneric, e, hread, hcause, hmessage⟩ => ?_
    obtain ⟨front, behind, hsplit, -, -, henters, hagain⟩ :=
      (hechoes _).fails rfl hread hcause
    -- the failed attempt has stopped inside the body, so it fails there again
    obtain ⟨more, rfl⟩ := suffix_of_enters hsplit.symm henters hbody hends (htidy reason rfl)
    refine ⟨hgeneric, e, ?_, hcause, hmessage⟩
    rw [List.append_assoc]
    exact hagain _ (Nat.lt_succ_self _) _

/-- What it takes to declare a type. -/
theorem declaredType_eq_ok_iff {tokens : List Token} {parsed : Parsed Declaration} :
    declaredType scope tokens = .ok parsed ↔ ∃ t behind kind, tokens = t :: behind ∧
      t.kind = .identifier ∧ typeKind scope behind = .ok kind ∧
        parsed = { kind with value := ⟨⟨t.text, kind.value⟩, t.pos⟩ } := by
  rw [declaredType, bind_eq_ok]
  constructor
  · rintro ⟨first, second, hname, hsecond, rfl⟩
    obtain ⟨kind, hkind, rfl⟩ := bind_pure_eq_ok.1 hsecond
    cases tokens with
    | nil => cases hname
    | cons t behind =>
      rw [name, expect] at hname
      split at hname
      next ht =>
        cases hname
        exact ⟨t, behind, kind, rfl, ht, hkind, by simp⟩
      next => cases hname
  · rintro ⟨t, behind, kind, rfl, ht, hkind, rfl⟩
    exact ⟨⟨t, [], behind⟩, _, if_pos ht, bind_pure_eq_ok.2 ⟨kind, hkind, rfl⟩, by simp⟩

end

/-! ### Rounds are read again -/

/-- Whether a type may be declared at a stage. What has been read up to there is over. -/
def Stage.isPlace : Stage → Bool
  | file | group => true
  | behind _ | skipped => false

/-- **The delimiters of a type that cannot be described keep in step**, in the declaration of its name
among some tokens. -/
def Declaration.Matched (tokens : List Token) (d : Declaration) : Prop :=
  ∀ reason declared body rest, d.object.kind = .unsupported reason →
    declared :: (body ++ rest) <:+ tokens → declared.pos = d.pos →
      skipNested 0 (body ++ rest) = .ok rest → Tidy body rest

/-- Delimiters in step among some tokens are in step among the last of them. -/
theorem Declaration.Matched.of_suffix {tokens rest : List Token} {d : Declaration}
    (h : d.Matched tokens) (hrest : rest <:+ tokens) : d.Matched rest :=
  fun reason declared body behind hkind hsuffix =>
    h reason declared body behind hkind (hsuffix.trans hrest)

/-- Where there are no tokens, no declaration is out of step. -/
theorem Declaration.matched_nil (d : Declaration) : d.Matched [] :=
  fun _ _ _ _ _ h => by simp at h

/-- The delimiters are in step among some tokens if they are behind the first one, and behind the
rest. This is what makes the condition decidable. -/
theorem Declaration.matched_cons {d : Declaration} {t : Token} {tokens : List Token} :
    d.Matched (t :: tokens) ↔ (t.pos = d.pos → (∃ reason, d.object.kind = .unsupported reason) →
      ∀ rest ∈ (skipNested 0 tokens).toOption,
        Tidy (tokens.take (tokens.length - rest.length)) rest) ∧ d.Matched tokens := by
  constructor
  · intro h
    refine ⟨fun hpos ⟨reason, hkind⟩ rest hrest => ?_, h.of_suffix (List.suffix_cons _ _)⟩
    have hskip : skipNested 0 tokens = .ok rest := by
      cases hskip : skipNested 0 tokens with
      | error e => simp [hskip, Except.toOption] at hrest
      | ok left => simpa [hskip, Except.toOption] using hrest
    obtain ⟨body, rfl, -⟩ := skipNested_eq_ok_iff.1 hskip
    have htake : (body ++ rest).take ((body ++ rest).length - rest.length) = body := by simp
    rw [htake]
    exact h reason t body rest hkind (List.suffix_refl _) hpos hskip
  · rintro ⟨hfirst, hbehind⟩ reason declared body rest hkind hsuffix hpos hskip
    rcases List.suffix_cons_iff.1 hsuffix with heq | hsuffix
    · cases heq
      have htidy := hfirst hpos ⟨reason, hkind⟩ rest (by simp [hskip, Except.toOption])
      simpa using htidy
    · exact hbehind reason declared body rest hkind hsuffix hpos hskip

instance (kind : ObjectKind) : Decidable (∃ reason, kind = .unsupported reason) :=
  match kind with
  | .unsupported reason => isTrue ⟨reason, rfl⟩
  | .type .. | .func | .var | .const => isFalse nofun

instance Declaration.decidableMatched (d : Declaration) : ∀ tokens, Decidable (d.Matched tokens)
  | [] => isTrue d.matched_nil
  | _ :: tokens =>
    have := d.decidableMatched tokens
    decidable_of_iff' _ matched_cons

/-- A parser reads again what it has read from some tokens, in front of anything if it comes to a place
for a type. -/
def Repeats (p : Parser (List Declaration × Stage)) (eats : Bool) (tokens : List Token) : Prop :=
  ∀ parsed, p tokens = .ok parsed → ∃ front, tokens = front ++ parsed.rest ∧
    (eats = true → front ≠ []) ∧
      ((∀ grouped, parsed.value.2 = .behind grouped → EndsDeclaration (nextKind parsed.rest)) →
        (∀ d ∈ parsed.value.1, d.Matched tokens) → ∀ rest,
          parsed.value.2.isPlace = true ∨ nextKind rest = nextKind parsed.rest →
            p (front ++ rest) = .ok { parsed with rest := rest })

namespace Repeats

variable {scope : Scope} {p q : Parser (List Declaration × Stage)} {eats : Bool} {tokens : List Token}

theorem pure (first : List Declaration × Stage) : Repeats (Pure.pure first) false tokens := by
  intro parsed h
  cases h
  exact ⟨[], rfl, by simp, fun _ _ _ _ => rfl⟩

/-- Where a parser fails, there is nothing to read again. -/
theorem fails (h : ∃ e, p tokens = .error e) : Repeats p eats tokens := by
  intro parsed hok
  obtain ⟨e, he⟩ := h
  rw [he] at hok
  cases hok

/-- A parser that is known to read a token may also be taken as one of which this is not known. -/
theorem weaken (h : Repeats p eats tokens) : Repeats p false tokens := by
  intro parsed hok
  obtain ⟨front, hsplit, -, hagain⟩ := h parsed hok
  exact ⟨front, hsplit, by simp, hagain⟩

/-- What is known of a parser on tokens that begin like these. -/
theorem congr (h : Repeats q true tokens)
    (hp : ∀ ts, nextKind ts = nextKind tokens → p ts = q ts) : Repeats p true tokens := by
  intro parsed hok
  rw [hp tokens rfl] at hok
  obtain ⟨front, rfl, hfront, hagain⟩ := h parsed hok
  refine ⟨front, rfl, hfront, fun hends hmatched rest hrest => ?_⟩
  rw [hp _ (nextKind_append_of_ne_nil (hfront rfl) _ _)]
  exact hagain hends hmatched rest hrest

/-- What comes behind a token that is read. -/
theorem cons {t : Token} {rest : List Token} (hp : ∀ rest, p (t :: rest) = q rest)
    (h : Repeats q false rest) : Repeats p true (t :: rest) := by
  intro parsed hok
  rw [hp] at hok
  obtain ⟨front, hsplit, -, hagain⟩ := h parsed hok
  refine ⟨t :: front, by rw [hsplit]; rfl, by simp, fun hends hmatched rest' hrest => ?_⟩
  rw [List.cons_append, hp]
  exact hagain hends (fun d hd => (hmatched d hd).of_suffix (List.suffix_cons t rest)) rest' hrest

/-- What does not come to a place for a type. -/
theorem of_again (h : p.Again) (hstage : ∀ parsed, p tokens = .ok parsed → parsed.value.2.isPlace = false) :
    Repeats p false tokens := by
  intro parsed hok
  obtain ⟨front, hsplit, hagain⟩ := h tokens parsed hok
  refine ⟨front, hsplit, by simp, fun _ _ rest hrest => hagain rest (hrest.resolve_left ?_)⟩
  simp [hstage parsed hok]

/-- A declared type is read again in front of what has ended it, if the tokens skipped for it have
their delimiters in step. -/
theorem declaredType (grouped : Bool) :
    Repeats (Syntax.declaredType scope >>= fun d => Pure.pure ([d], .behind grouped)) true tokens := by
  intro parsed hok
  obtain ⟨first, hfirst, rfl⟩ := bind_pure_eq_ok.1 hok
  obtain ⟨t, behind, kind, rfl, ht, hkind, rfl⟩ := declaredType_eq_ok_iff.1 hfirst
  obtain ⟨body, rfl, hagain⟩ := typeKind_again hkind
  refine ⟨t :: body, rfl, by simp, fun hends hmatched rest hrest => ?_⟩
  -- behind a spec there is no place for a type, so what follows begins as before
  have hnext : nextKind rest = nextKind kind.rest := hrest.resolve_left (by simp [Stage.isPlace])
  refine bind_pure_eq_ok.2 ⟨_, declaredType_eq_ok_iff.2
    ⟨t, _, { kind with rest := rest }, rfl, ht, ?_, rfl⟩, rfl⟩
  refine hagain (hends grouped rfl) (fun reason hreason => ?_) rest hnext
  refine hmatched _ (List.mem_singleton_self _) reason t body kind.rest hreason (List.suffix_refl _) rfl ?_
  -- only a type that was skipped has delimiters to keep in step
  obtain ⟨-, hread⟩ | ⟨_, _, hskip, rfl, -⟩ := typeKind_eq_ok_iff.1 hkind
  · obtain ⟨_, _, htype⟩ := typeDefinition_eq_ok hread
    rw [htype] at hreason
    cases hreason
  · exact hskip

end Repeats

/-- Values end at no place for a type, so they are read again only in front of what has followed. -/
theorem repeats_values (kind : ObjectKind) (tokens : List Token) :
    Repeats (values kind) false tokens := by
  refine .of_again (.of_echoes (echoes_values kind 0)) fun parsed h => ?_
  obtain ⟨⟨opened, _, _⟩, _, -, hrest, rfl⟩ := bind_eq_ok.1 h
  -- a group ends behind its parenthesis and a single value behind what was skipped
  cases opened
  all_goals
    obtain ⟨_, -, rfl⟩ := bind_pure_eq_ok.1 hrest
    rfl

/-- Each kind of round is read again, one case for every stage and first token. -/
theorem repeats_roundFrom {scope : Scope} (s : Stage) (kind : Kind) (t : Token) (rest : List Token) :
    Repeats (roundFrom scope s kind) true (t :: rest) := by
  have hskip {f : Unit → Parser (List Declaration × Stage)} (h : Repeats (f ()) false rest) :
      Repeats (skip >>= f) true (t :: rest) :=
    .cons (fun _ => bind_of_ok rfl) h
  -- the cases are numbered as the rounds are in the definition
  unfold roundFrom
  split
  case h_2 =>
    refine hskip ?_
    by_cases hopens : nextKind rest = some .leftParen
    · obtain ⟨u, rest, rfl, hu⟩ := exists_cons_of_nextKind hopens
      exact (Repeats.cons (fun rest => bind_of_ok (accept_of_eq hu rest)) (.pure _)).weaken
    · have hdeclared : Repeats (declaredType scope >>= fun d => pure ([d], .behind false)) true rest :=
        .declaredType false
      refine (Repeats.congr hdeclared fun ts hts => ?_).weaken
      exact bind_of_ok (accept_of_ne (hts ▸ hopens))
  case h_3 =>
    refine hskip (.of_again (again_funcHead.bind fun _ => .pure _) fun parsed h => ?_)
    obtain ⟨_, -, rfl⟩ := bind_pure_eq_ok.1 h
    rfl
  case h_4 | h_5 => exact hskip (repeats_values _ rest)
  case h_10 => exact .declaredType true
  case h_6 | h_7 | h_13 | h_15 => exact .fails ⟨_, rfl⟩
  all_goals exact hskip (.pure _)

/-- **A round is read again.** -/
theorem repeats_round {scope : Scope} (s : Stage) (tokens : List Token) :
    Repeats (round scope s) true tokens := by
  cases tokens with
  | nil => exact .fails ⟨_, rfl⟩
  | cons t rest => exact (repeats_roundFrom s t.kind t rest).congr fun ts => round_of_nextKind s

/-! ### The machine and the loops -/

namespace Parser

variable {α β : Type} {p q : Parser α} {f g : α → Parser β} {tokens : List Token}

/-- What comes behind a parser is only asked about what that parser leaves. -/
theorem bind_congr_at (h : ∀ first, p tokens = .ok first →
    f first.value first.rest = g first.value first.rest) : (p >>= f) tokens = (p >>= g) tokens := by
  change (p >>= f).run tokens = (p >>= g).run tokens
  rw [run_bind, run_bind]
  simp only [run]
  cases hfirst : p tokens with
  | error e => rfl
  | ok first => simp only [h first hfirst]

/-- What stands behind two parsers that do the same does the same. -/
theorem bind_congr_first {tokens' : List Token} (h : p tokens = q tokens') :
    (p >>= f) tokens = (q >>= f) tokens' := by
  change (p >>= f).run tokens = (q >>= f).run tokens'
  rw [run_bind, run_bind, run, run, h]

/-- What is read again leaves no more tokens than it was given. -/
theorem Again.length_le {parsed : Parsed α} (hp : p.Again) (h : p tokens = .ok parsed) :
    parsed.rest.length ≤ tokens.length := by
  obtain ⟨front, rfl, -⟩ := hp tokens parsed h
  rw [List.length_append]
  omega

end Parser

/-- Behind what is skipped there is what ends a declaration. -/
theorem skipToEnd_ends {tokens : List Token} {parsed : Parsed Unit} (h : skipToEnd tokens = .ok parsed) :
    EndsDeclaration (nextKind parsed.rest) := by
  obtain ⟨rest, hskip, rfl⟩ := skipToEnd_eq_ok_iff.1 h
  obtain ⟨-, -, -, hends⟩ := skipNested_eq_ok_iff.1 hskip
  exact hends

/-- Behind the head of a function there is what ends its declaration. -/
theorem funcHead_ends {tokens : List Token} {parsed : Parsed (List Declaration)}
    (h : funcHead tokens = .ok parsed) : EndsDeclaration (nextKind parsed.rest) := by
  obtain ⟨_, _, -, hbehind, rfl⟩ := bind_eq_ok.1 h
  obtain ⟨_, _, -, hend, rfl⟩ := bind_eq_ok.1 hbehind
  obtain ⟨_, hskip, rfl⟩ := bind_pure_eq_ok.1 hend
  exact skipToEnd_ends hskip

/-- Behind the head of a value there is what ends its declaration. -/
theorem valueHead_ends {kind : ObjectKind} {tokens : List Token} {parsed : Parsed (List Declaration)}
    (h : valueHead kind tokens = .ok parsed) : EndsDeclaration (nextKind parsed.rest) := by
  obtain ⟨_, _, -, hend, rfl⟩ := bind_eq_ok.1 h
  obtain ⟨_, hskip, rfl⟩ := bind_pure_eq_ok.1 hend
  exact skipToEnd_ends hskip

section

variable {scope : Scope}

/-- A declared type takes at least the token of its name. -/
theorem declaredType_length {tokens : List Token} {parsed : Parsed Declaration}
    (h : declaredType scope tokens = .ok parsed) : parsed.rest.length < tokens.length := by
  obtain ⟨t, behind, kind, rfl, -, hkind, rfl⟩ := declaredType_eq_ok_iff.1 h
  obtain ⟨body, rfl, -⟩ := typeKind_again hkind
  change kind.rest.length < (t :: (body ++ kind.rest)).length
  rw [List.length_cons, List.length_append]
  omega

/-- The loops and the machine read alike, from any stage, if the machine has the given budget. -/
def ReadAlike (scope : Scope) (m : Nat) : Prop :=
  ∀ {k n s tokens}, tokens.length < k → tokens.length < n → tokens.length < m →
    (s = .skipped → EndsDeclaration (nextKind tokens)) →
      resume scope k n s tokens = rounds scope m s tokens

section

variable {k n m : Nat} {t : Token} {rest : List Token}

theorem peek_cons {α : Type} {f : Option Kind → Parser α} :
    (peek 0 >>= f) (t :: rest) = f (some t.kind) (t :: rest) := bind_of_ok rfl

theorem skip_cons {α : Type} {f : Unit → Parser α} : (skip >>= f) (t :: rest) = f () rest :=
  bind_of_ok rfl

/-- What the machine reads, given the first token. -/
theorem rounds_eq_roundFrom (m : Nat) (s : Stage) (t : Token) (rest : List Token) :
    rounds scope (m + 1) s (t :: rest) = (roundFrom scope s t.kind >>= fun first =>
      rounds scope m first.2 >>= fun more => pure (first.1 ++ more)) (t :: rest) := by
  rw [rounds_cons]
  exact bind_congr_first (round_of_nextKind s rfl)

/-- What the loops read on behind values. -/
theorem values_alike (h : ReadAlike scope m) (hn : rest.length < n) (hm : rest.length < m)
    (kind : ObjectKind) :
    (group (fun _ => valueSpec kind) >>= fun first => declarations scope n >>= fun more =>
      pure (first.flatten ++ more)) rest =
    (values kind >>= fun first => rounds scope m first.2 >>= fun more =>
      pure (first.1 ++ more)) rest := by
  rw [group, values, bind_assoc, bind_assoc]
  refine bind_congr_at fun opened hopened => ?_
  -- looking for the parenthesis adds no token
  have hle : opened.rest.length ≤ rest.length := by
    by_cases hopens : nextKind rest = some .leftParen
    · obtain ⟨u, rest, rfl, hu⟩ := exists_cons_of_nextKind hopens
      rw [accept_of_eq hu] at hopened
      cases hopened
      simp
    · rw [accept_of_ne hopens] at hopened
      cases hopened
      exact le_rfl
  obtain ⟨opens, _, behind⟩ := opened
  dsimp only at hle ⊢
  -- behind a group the semicolon is wanted, behind a single value it is looked for
  cases opens with
  | true =>
    simp only [reduceIte, bind_assoc, pure_bind]
    refine bind_congr_at fun specs hspecs => ?_
    have hagain : Again (bounded (groupRest (valueSpec kind))) :=
      .of_echoes (echoes_valueGroup kind 0)
    have hlength := hagain.length_le hspecs
    rw [← bind_assoc]
    refine bind_congr_first (h (s := .behind false) (Nat.lt_succ_self _) ?_ ?_ (by simp)) <;> omega
  | false =>
    simp only [Bool.false_eq_true, reduceIte, bind_assoc, pure_bind, valueSpec_eq]
    refine bind_congr_at fun first hfirst => ?_
    have hlength := (Again.of_echoes (echoes_valueHead kind false 0)).length_le hfirst
    rw [← bind_assoc, List.flatten_singleton]
    refine bind_congr_first (h (s := .skipped) (Nat.lt_succ_self _) ?_ ?_ fun _ => ?_)
    · omega
    · omega
    · exact valueHead_ends hfirst

/-- What the loops read on behind the keyword of a type, in a group or alone. -/
theorem type_alike (h : ReadAlike scope m) (hn : rest.length < n) (hm : rest.length < m) :
    (group (typeSpec scope) >>= fun first => declarations scope n >>= fun more =>
      pure (first ++ more)) rest =
    ((accept .leftParen >>= fun b => if b then pure ([], Stage.group)
        else declaredType scope >>= fun d => pure ([d], Stage.behind false)) >>= fun first =>
      rounds scope m first.2 >>= fun more => pure (first.1 ++ more)) rest := by
  rw [group, bind_assoc, bind_assoc]
  -- the parenthesis of a group is a round of its own for the machine
  by_cases hopens : nextKind rest = some .leftParen
  · obtain ⟨u, rest, rfl, hu⟩ := exists_cons_of_nextKind hopens
    rw [bind_of_ok (accept_of_eq hu rest), bind_of_ok (accept_of_eq hu rest)]
    simp only [reduceIte, bind_assoc, pure_bind, List.nil_append, bind_pure]
    rw [List.length_cons] at hn hm
    exact h (s := .group) (Nat.lt_succ_self _) (by omega) (by omega) (by simp)
  · rw [bind_of_ok (accept_of_ne hopens), bind_of_ok (accept_of_ne hopens)]
    simp only [Bool.false_eq_true, reduceIte, bind_assoc, pure_bind, typeSpec_eq]
    refine bind_congr_at fun d hd => ?_
    have hlength := declaredType_length hd
    rw [← bind_assoc]
    refine bind_congr_first (h (s := .behind false) (Nat.lt_succ_self _) ?_ ?_ (by simp)) <;> omega

/-- What is read on where a declaration may begin. One case follows per keyword. -/
theorem file_alike (h : ReadAlike scope m) (hn : rest.length < n) (hm : rest.length < m) :
    declarations scope (n + 1) (t :: rest) = rounds scope (m + 1) .file (t :: rest) := by
  rw [rounds_eq_roundFrom, declarations, peek_cons]
  cases hkind : t.kind with
  | semicolon =>
    simp only [roundFrom, bind_assoc, pure_bind, List.nil_append, bind_pure]
    rw [skip_cons, skip_cons]
    exact h (s := .file) (Nat.lt_succ_self _) hn hm (by simp)
  | keyword kw =>
    cases kw with
    | typeKw =>
      simp only [roundFrom, bind_assoc]
      rw [skip_cons, skip_cons, type_alike h hn hm, bind_assoc]
    | funcKw =>
      simp only [roundFrom, bind_assoc, pure_bind, funcDeclaration_eq]
      rw [skip_cons, skip_cons]
      refine bind_congr_at fun first hfirst => ?_
      have hlength := again_funcHead.length_le hfirst
      rw [← bind_assoc]
      refine bind_congr_first (h (s := .skipped) (Nat.lt_succ_self _) ?_ ?_ fun _ => ?_)
      · omega
      · omega
      · exact funcHead_ends hfirst
    | varKw =>
      simp only [roundFrom, bind_assoc]
      rw [skip_cons, skip_cons, values_alike h hn hm]
    | constKw =>
      simp only [roundFrom, bind_assoc]
      rw [skip_cons, skip_cons, values_alike h hn hm]
    | _ => rfl
  | _ => rfl

/-- A group passes a semicolon that stands in front of a spec. -/
theorem groupRest_semicolon {α : Type} (spec : Parser α) (ht : t.kind = .semicolon) :
    groupRest spec (k + 1) (t :: rest) = groupRest spec (k + 1) rest := by
  rw [groupRest]
  exact bind_congr_first (skipSemicolons_cons ht rest)

/-- A group ends at its parenthesis. -/
theorem groupRest_rightParen {α : Type} (spec : Parser α) (ht : t.kind = .rightParen) :
    groupRest spec (k + 1) (t :: rest) = .ok ⟨[], [], rest⟩ := by
  have hnone : skipSemicolons (t :: rest) = .ok ⟨(), [], t :: rest⟩ :=
    skipSemicolons_of_ne (by simp [nextKind, ht])
  rw [groupRest, bind_of_ok hnone, bind_of_ok (accept_of_eq ht rest)]
  rfl

/-- A group reads a spec at any other token, and goes on behind it. -/
theorem groupRest_spec {α : Type} (spec : Parser α) (hends : t.kind ≠ .semicolon)
    (hcloses : t.kind ≠ .rightParen) : groupRest spec (k + 1) (t :: rest) =
      (spec >>= fun first => groupRest spec k >>= fun others => pure (first :: others)) (t :: rest) := by
  have hnone : skipSemicolons (t :: rest) = .ok ⟨(), [], t :: rest⟩ :=
    skipSemicolons_of_ne (by simpa [nextKind] using hends)
  have hother : nextKind (t :: rest) ≠ some .rightParen := by simpa [nextKind] using hcloses
  rw [groupRest, bind_of_ok hnone, bind_of_ok (accept_of_ne hother)]
  exact peek_cons

/-- What is read on in a group of types. -/
theorem group_alike (h : ReadAlike scope m) (hk : rest.length < k) (hn : rest.length < n)
    (hm : rest.length < m) :
    resume scope (k + 1) n .group (t :: rest) = rounds scope (m + 1) .group (t :: rest) := by
  rw [rounds_eq_roundFrom, resume]
  by_cases hends : t.kind = .semicolon
  · rw [hends]
    simp only [roundFrom, bind_assoc, pure_bind, List.nil_append, bind_pure]
    rw [skip_cons, bind_congr_first (groupRest_semicolon _ hends)]
    exact h (s := .group) (by omega) hn hm (by simp)
  by_cases hcloses : t.kind = .rightParen
  · rw [hcloses]
    simp only [roundFrom, bind_assoc, pure_bind, List.nil_append, bind_pure]
    rw [skip_cons, bind_of_ok (groupRest_rightParen _ hcloses)]
    simp only [List.nil_append, bind_pure]
    exact h (s := .behind false) (Nat.lt_succ_self _) hn hm (by simp)
  · have hround : roundFrom scope .group t.kind =
        declaredType scope >>= fun d => pure ([d], .behind true) := by
      cases hkind : t.kind <;> simp_all [roundFrom]
    rw [hround, bind_congr_first (groupRest_spec _ hends hcloses)]
    -- only the spec that is read is taken apart, and not the ones behind it
    generalize hmore : groupRest (typeSpec scope true) k = more
    simp only [bind_assoc, pure_bind, typeSpec_eq]
    refine bind_congr_at fun d hd => ?_
    have hlength := declaredType_length hd
    rw [List.length_cons] at hlength
    have hall : resume scope k n (.behind true) d.rest = rounds scope m (.behind true) d.rest :=
      h (by omega) (by omega) (by omega) (by simp)
    rw [← bind_congr_first hall]
    simp only [resume, hmore, bind_assoc, pure_bind, List.cons_append, List.nil_append]

/-- What is read on behind a spec, in a group or not. -/
theorem behind_alike (h : ReadAlike scope m) (hk : rest.length < k) (hn : rest.length < n)
    (hm : rest.length < m) (grouped : Bool) :
    resume scope (k + 1) (n + 1) (.behind grouped) (t :: rest) =
      rounds scope (m + 1) (.behind grouped) (t :: rest) := by
  rw [rounds_eq_roundFrom]
  cases grouped with
  | false =>
    rw [resume, specEnd, bind_assoc, peek_cons]
    cases hkind : t.kind with
    | semicolon =>
      simp only [roundFrom, bind_assoc, pure_bind, List.nil_append, bind_pure]
      rw [skip_cons, skip_cons]
      exact h (s := .file) (n := n + 1) (Nat.lt_succ_self _) (by omega) hm (by simp)
    | _ => rfl
  | true =>
    rw [resume, specEnd, bind_assoc, peek_cons]
    cases hkind : t.kind with
    | semicolon =>
      simp only [roundFrom, bind_assoc, pure_bind, List.nil_append, bind_pure]
      rw [skip_cons, skip_cons]
      exact h (s := .group) (by omega) (by omega) hm (by simp)
    | rightParen =>
      simp only [roundFrom, bind_assoc, pure_bind, List.nil_append, bind_pure, reduceIte]
      rw [skip_cons]
      rw [bind_of_ok (groupRest_rightParen _ hkind)]
      simp only [List.nil_append, bind_pure]
      exact h (s := .behind false) (n := n + 1) (Nat.lt_succ_self _) (by omega) hm (by simp)
    | _ => rfl

/-- What is read on behind a declaration that was skipped, which has to be followed by what ends it.
-/
theorem skipped_alike (h : ReadAlike scope m) (hn : rest.length < n) (hm : rest.length < m)
    (hends : EndsDeclaration (nextKind (t :: rest))) :
    resume scope k (n + 1) .skipped (t :: rest) = rounds scope (m + 1) .skipped (t :: rest) := by
  rw [rounds_eq_roundFrom, resume]
  rcases hends t.kind rfl with hkind | hkind
  · rw [bind_of_ok (accept_of_eq hkind rest), hkind]
    simp only [roundFrom, bind_assoc, pure_bind, List.nil_append, bind_pure]
    rw [skip_cons]
    exact h (s := .file) (n := n + 1) (Nat.lt_succ_self _) (by omega) hm (by simp)
  · have hother : nextKind (t :: rest) ≠ some .semicolon := by
      rintro heq
      rw [Option.some.inj heq] at hkind
      cases hkind
    rw [bind_of_ok (accept_of_ne hother), declarations, peek_cons]
    cases htk : t.kind <;> rw [htk] at hkind <;> cases hkind <;> rfl

end

/-- What the loops read on from a stage, the machine reads. -/
theorem readAlike (m : Nat) : ReadAlike scope m := by
  induction m with
  | zero => intro _ _ _ _ _ _ hm; cases hm
  | succ m ih =>
    intro k n s tokens hk hn hm hskipped
    -- with a token left, no budget is used up
    obtain ⟨n, rfl⟩ := Nat.exists_eq_succ_of_ne_zero (Nat.ne_zero_of_lt hn)
    obtain ⟨k, rfl⟩ := Nat.exists_eq_succ_of_ne_zero (Nat.ne_zero_of_lt hk)
    cases tokens with
    | nil =>
      cases s with
      | behind grouped => cases grouped <;> rfl
      | _ => rfl
    | cons t rest =>
      replace hk : rest.length < k := Nat.lt_of_succ_lt_succ hk
      replace hn : rest.length < n := Nat.lt_of_succ_lt_succ hn
      replace hm : rest.length < m := Nat.lt_of_succ_lt_succ hm
      cases s with
      | file => exact file_alike ih hn hm
      | group => exact group_alike ih hk (Nat.lt_succ_of_lt hn) hm
      | behind grouped => exact behind_alike ih hk hn hm grouped
      | skipped => exact skipped_alike ih hn hm (hskipped rfl)

/-- **The loops and the machine read alike.** -/
theorem declarations_eq_rounds {n m : Nat} {tokens : List Token} (hn : tokens.length < n)
    (hm : tokens.length < m) : declarations scope n tokens = rounds scope m .file tokens :=
  readAlike m (k := n) (s := .file) hn hn hm (by simp)

end

end Multicast.Syntax
