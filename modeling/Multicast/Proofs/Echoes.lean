import Multicast.Proofs.Delimiters

/-!
# The same words in another file

What a parser makes of words depends on these words and on the kind of the token behind them, and on
nothing else: neither on places, nor on what comes later, nor on how long the file is. So it reads the
words again wherever they stand.

A type that cannot be described is found out after some of its words, and there the attempt to read it
is given up. In any file in which these words stand it is given up there too, for the same cause. All
of them belong to the declaration of the type: wherever the attempt is given up, no declaration has
ended. Here the lengths of arrays are in the way, since they are read up to a bracket without looking
at braces, so they have to keep in step with the other delimiters (`Tidy`).

`EchoesAt next eats budget a b p q` says all this of a parser `p` and of others `q i`, which run on
other files. They differ in their budgets, so that `q i` reads again what it has the budget for.

## Depths, and why lengths are in the way

How deep the reader is in delimiters is told by the kinds of the words alone (`Shifts`): from depth `a`
they lead to depth `b`, and all depths are counted from the depth around, so that what is known of words
is known of them inside of anything. At depth zero a semicolon or a closing delimiter ends the
declaration, and so a type that is skipped ends there.

An attempt to read a type must not have gone past this end when it is given up. Most tokens that are read
tell how deep they lead. The length of an array does not, for it is read up to a bracket, and a brace in
it may stand without its partner. `Tidy` excludes that. It is asked of the tokens as far as they have been
read, which is why there are two notions: tokens that are crossed, with a known depth behind them
(`Crosses`), and tokens that have been gone into only (`Enters`).
-/

namespace Multicast.Syntax

open Source Multicast.Syntax.Parser

/-! ### Depths

Of shifts the reader needs to know how they compose, what single tokens do, and that in words with a known
shift no declaration ends. -/

/-- Where `a` delimiters are open, words of these kinds leave `b` open, whatever is open around them,
and no declaration ends among them. -/
def Shifts (a b : Nat) (ks : List Kind) : Prop :=
  ∀ d, nest (a + d) ks = some (b + d)

namespace Shifts

variable {a b c : Nat} {k : Kind} {ks ks' : List Kind}

theorem nil (a : Nat) : Shifts a a [] := fun d => by
  cases a + d <;> rfl

/-- One shift after the other. -/
theorem append (h : Shifts a b ks) (h' : Shifts b c ks') : Shifts a c (ks ++ ks') := fun d => by
  rw [nest_append, h d]
  exact h' d

/-- A delimiter that opens shifts up. -/
theorem opening (hk : k.isOpening = true) : Shifts a (a + 1) [k] := fun d => by
  have hplain : k ≠ .semicolon ∧ k.isClosing = false := by cases k <;> simp_all [Kind.isOpening, Kind.isClosing]
  rw [Nat.add_right_comm]
  cases a + d <;> simp [nest, hk, hplain]

/-- A delimiter that closes shifts down. -/
theorem closing (hk : k.isClosing = true) : Shifts (a + 1) a [k] := fun d => by
  have hplain : k.isOpening = false := by cases k <;> simp_all [Kind.isOpening, Kind.isClosing]
  rw [Nat.add_right_comm]
  simp [nest, hk, hplain]

/-- Any other token shifts nothing, if it ends no declaration. -/
theorem plain (hk : k.isPlain = true) (hends : k ≠ .semicolon) : Shifts a a [k] := fun d => by
  obtain ⟨hopens, hcloses⟩ : k.isOpening = false ∧ k.isClosing = false := by
    simpa [Kind.isPlain] using hk
  cases a + d <;> simp [nest, hopens, hcloses, hends]

/-- Inside a delimiter a semicolon ends no declaration. -/
theorem semicolon : Shifts (a + 1) (a + 1) [.semicolon] := fun d => by
  rw [Nat.add_right_comm]
  simp [nest, Kind.isOpening, Kind.isClosing]

/-- What closes all delimiters that it opens shifts nothing, inside of another one. -/
theorem of_balanced (h : Balanced ks) : Shifts (a + 1) (a + 1) ks := fun d => by
  rw [Nat.add_right_comm]
  exact h (a + d)

end Shifts

/-- Where `a` delimiters are open, no declaration ends among words of these kinds. -/
def Inside (a : Nat) (ks : List Kind) : Prop :=
  ∀ d, ∃ e, nest (a + d) ks = some e

/-- Where a shift is known, no declaration ends. -/
theorem Shifts.inside {a b : Nat} {ks : List Kind} (h : Shifts a b ks) : Inside a ks :=
  fun d => ⟨b + d, h d⟩

/-- No declaration ends among words that are first shifted over and then gone into. -/
theorem Shifts.append_inside {a b : Nat} {ks ks' : List Kind} (h : Shifts a b ks)
    (h' : Inside b ks') : Inside a (ks ++ ks') := fun d => by
  rw [nest_append, h d]
  exact h' d

/-- If no declaration ends among some words, none ends among the first of them. -/
theorem Inside.left {a : Nat} {ks ks' : List Kind} (h : Inside a (ks ++ ks')) : Inside a ks :=
  fun d => by
    obtain ⟨e, he⟩ := h d
    rw [nest_append, Option.bind_eq_some_iff] at he
    obtain ⟨c, hc, -⟩ := he
    exact ⟨c, hc⟩

/-! ### Lengths of arrays

The condition is asked at every opening bracket among the tokens, whether or not a length begins there. So
it can be decided without reading, and holds of a part if it holds of the whole. -/

/-- **The delimiters keep in step**: wherever a bracket is opened among some tokens, with others behind
them, all delimiters are closed among the tokens that are read as the length of an array there. -/
def Tidy (tokens behind : List Token) : Prop :=
  ∀ us t vs inside rest, tokens = us ++ t :: vs → t.kind = .leftBracket →
    lengthTokens 0 (vs ++ behind) = some (inside, rest) → Balanced (inside.map Token.kind)

section

variable {us vs behind : List Token}

theorem tidy_nil : Tidy [] behind :=
  fun us t vs _ _ h => by simp at h

/-- The delimiters keep in step if they do behind the first token, and also in the length that may
begin there. This is what makes the condition decidable. -/
theorem tidy_cons {t : Token} : Tidy (t :: vs) behind ↔
    (t.kind = .leftBracket → ∀ found ∈ lengthTokens 0 (vs ++ behind),
      Balanced (found.1.map Token.kind)) ∧ Tidy vs behind := by
  constructor
  · intro h
    exact ⟨fun ht found hfound => h [] t vs found.1 found.2 rfl ht hfound,
      fun us u vs' inside rest heq => h (t :: us) u vs' inside rest (by rw [heq, List.cons_append])⟩
  · rintro ⟨hfirst, hbehind⟩ us u vs' inside rest heq hu hlength
    cases us with
    | nil =>
      cases heq
      exact hfirst hu _ hlength
    | cons t us =>
      cases heq
      exact hbehind us u vs' inside rest rfl hu hlength

instance (ks : List Kind) : Decidable (Balanced ks) :=
  decidable_of_iff (nest 1 ks = some 1) ⟨balanced_of_nest, fun h => h 0⟩

instance decidableTidy : ∀ tokens behind : List Token, Decidable (Tidy tokens behind)
  | [], _ => isTrue tidy_nil
  | _ :: tokens, behind =>
    have := decidableTidy tokens behind
    decidable_of_iff' _ tidy_cons

/-- What is in step in the whole is in step in front, with the rest behind it. -/
theorem Tidy.left (h : Tidy (us ++ vs) behind) : Tidy us (vs ++ behind) :=
  fun us' t vs' inside rest heq ht hlength =>
    h us' t (vs' ++ vs) inside rest (by simp [heq]) ht (by rwa [List.append_assoc])

/-- What is in step in the whole is in step at the end. -/
theorem Tidy.right (h : Tidy (us ++ vs) behind) : Tidy vs behind :=
  fun us' t vs' inside rest heq =>
    h (us ++ us') t vs' inside rest (by simp [heq])

/-- Among tokens that are in step no declaration ends, as far as they are. -/
def Enters (a : Nat) (tokens behind : List Token) : Prop :=
  ∀ us vs, tokens = us ++ vs → Tidy us (vs ++ behind) → Inside a (us.map Token.kind)

/-- Tokens that are in step shift the depth, and no declaration ends among them. -/
structure Crosses (a b : Nat) (tokens behind : List Token) : Prop where
  enters : Enters a tokens behind
  shifts : Tidy tokens behind → Shifts a b (tokens.map Token.kind)

variable {a b c : Nat}

/-- Words in which no declaration ends may be gone into, whatever the lengths in them. -/
theorem Enters.of_inside (h : Inside a (us.map Token.kind)) : Enters a us behind := by
  rintro us vs rfl -
  rw [List.map_append] at h
  exact h.left

/-- Words with a known shift may be crossed, whatever the lengths in them. -/
theorem Crosses.of_shifts (h : Shifts a b (us.map Token.kind)) : Crosses a b us behind :=
  ⟨.of_inside h.inside, fun _ => h⟩

/-- Some words are crossed, and then others gone into. -/
theorem Crosses.append_enters (h : Crosses a b us (vs ++ behind)) (h' : Enters b vs behind) :
    Enters a (us ++ vs) behind := by
  intro us' vs' heq htidy
  rcases List.append_eq_append_iff.1 heq with ⟨more, rfl, rfl⟩ | ⟨more, rfl, rfl⟩
  · have hus : Tidy us (more ++ vs' ++ behind) := by
      rw [List.append_assoc]
      exact htidy.left
    rw [List.map_append]
    exact (h.shifts hus).append_inside (h' more vs' rfl htidy.right)
  · refine h.enters us' more rfl ?_
    rwa [← List.append_assoc]

/-- Some words are crossed, and then others. -/
theorem Crosses.append (h : Crosses a b us (vs ++ behind)) (h' : Crosses b c vs behind) :
    Crosses a c (us ++ vs) behind := by
  refine ⟨h.append_enters h'.enters, fun htidy => ?_⟩
  rw [List.map_append]
  exact (h.shifts htidy.left).append (h'.shifts htidy.right)

end

/-! ### Reading again -/

namespace Parser

variable {ι κ α β : Type}

/-- What it takes to fail with one parser behind another one. -/
theorem bind_eq_error {p : Parser α} {f : α → Parser β} {tokens : List Token} {e : Failure} :
    (p >>= f) tokens = .error e ↔ p tokens = .error e ∨
      ∃ first, p tokens = .ok first ∧ f first.value first.rest = .error e := by
  change (p >>= f).run tokens = _ ↔ _
  rw [run_bind]
  simp only [run]
  cases p tokens with
  | error e' => simp
  | ok first => cases hsecond : f first.value first.rest <;> simp [hsecond]

/-- **Parsers read again what another one has read** from tokens that begin with the given kind, if
what follows begins alike. With `eats` at least one token is read; the tokens that are read shift the
depth from `a` to `b`. What the first parser gives up, since it cannot be described, the others give up
behind the same tokens, whatever follows them. -/
structure EchoesAt (next : Option Kind) (eats : Bool) (budget : ι → Nat) (a b : Nat) (p : Parser α)
    (q : ι → Parser α) : Prop where
  reads : ∀ {tokens parsed}, nextKind tokens = next → p tokens = .ok parsed →
    ∃ front, tokens = front ++ parsed.rest ∧ (eats = true → front ≠ []) ∧
      Crosses a b front parsed.rest ∧ ∀ i, front.length < budget i →
        ∀ rest, nextKind rest = nextKind parsed.rest →
          q i (front ++ rest) = .ok { parsed with rest := rest }
  fails : ∀ {tokens e}, nextKind tokens = next → p tokens = .error e →
    e.cause.isUnsupported = true →
      ∃ front behind, tokens = front ++ behind ∧ front ≠ [] ∧
        (next = some .identifier → 2 ≤ front.length) ∧ Enters a front behind ∧
          ∀ i, front.length < budget i → ∀ rest, q i (front ++ rest) = .error e

/-- Parsers read again what another one has read, whatever it begins with. -/
def Echoes (eats : Bool) (budget : ι → Nat) (a b : Nat) (p : Parser α) (q : ι → Parser α) : Prop :=
  ∀ next, EchoesAt next eats budget a b p q

/-- Behind at least one token, the rest does not show in the next one. -/
theorem nextKind_append_of_ne_nil {front : List Token} (h : front ≠ []) (rest rest' : List Token) :
    nextKind (front ++ rest) = nextKind (front ++ rest') := by
  cases front with
  | nil => exact absurd rfl h
  | cons t front => rfl

/-- Of two rests that begin alike, the next token is the same behind any front. -/
theorem nextKind_append_congr {rest rest' : List Token} (h : nextKind rest = nextKind rest')
    (front : List Token) : nextKind (front ++ rest) = nextKind (front ++ rest') := by
  cases front with
  | nil => exact h
  | cons t front => rfl

section

variable {next : Option Kind} {eats eats' : Bool} {budget : ι → Nat} {a b c : Nat} {p : Parser α}
  {q : ι → Parser α} {f : α → Parser β} {g : ι → α → Parser β}

namespace EchoesAt

/-- What is read by one parser behind another one. If the first one eats, the second one has to read
less. -/
theorem seq (hp : EchoesAt next eats budget a b p q)
    (hf : ∀ x, Echoes eats' (fun i => budget i - eats.toNat) b c (f x) fun i => g i x) :
    EchoesAt next (eats || eats') budget a c (p >>= f) fun i => q i >>= g i := by
  -- what the first parser has read counts against the budget of the second one
  have hless {us vs : List Token} (hus : eats = true → us ≠ []) {n : Nat}
      (h : (us ++ vs).length < n) : us.length < n ∧ vs.length < n - eats.toNat := by
    rw [List.length_append] at h
    cases eats with
    | false => simp; omega
    | true =>
      have hpos := List.length_pos_of_ne_nil (hus rfl)
      simp
      omega
  constructor
  · intro tokens parsed hnext h
    obtain ⟨first, second, hfirst, hsecond, rfl⟩ := bind_eq_ok.1 h
    obtain ⟨us, rfl, hus, hcross, hagain⟩ := hp.reads hnext hfirst
    obtain ⟨vs, hsplit, hvs, hcross', hagain'⟩ := (hf _ _).reads rfl hsecond
    refine ⟨us ++ vs, by rw [List.append_assoc, ← hsplit], fun heats => ?_,
      (hsplit ▸ hcross).append hcross', fun i hlength rest hrest => ?_⟩
    · rcases Bool.or_eq_true_iff.1 heats with heats | heats
      · simp [hus heats]
      · simp [hvs heats]
    · obtain ⟨hus', hvs'⟩ := hless hus hlength
      have hnext' : nextKind (vs ++ rest) = nextKind first.rest := by
        rw [hsplit]
        exact nextKind_append_congr hrest vs
      rw [List.append_assoc]
      exact bind_eq_ok.2 ⟨_, _, hagain i hus' _ hnext', hagain' i hvs' rest hrest, rfl⟩
  · intro tokens e hnext h hcause
    -- either parser may fail; if it is the second one, the first one reads again as before
    rcases bind_eq_error.1 h with herror | ⟨first, hfirst, herror⟩
    · obtain ⟨us, behind, rfl, hus, htwo, henters, hagain⟩ := hp.fails hnext herror hcause
      exact ⟨us, behind, rfl, hus, htwo, henters, fun i hlength rest =>
        bind_eq_error.2 (.inl (hagain i hlength rest))⟩
    · obtain ⟨us, rfl, hus, hcross, hagain⟩ := hp.reads hnext hfirst
      obtain ⟨vs, behind, hsplit, hvs, htwo, henters, hagain'⟩ := (hf _ _).fails rfl herror hcause
      refine ⟨us ++ vs, behind, by rw [List.append_assoc, ← hsplit], by simp [hvs], ?_,
        (hsplit ▸ hcross).append_enters henters, fun i hlength rest => bind_eq_error.2 (.inr ?_)⟩
      · rintro rfl
        have hpos := List.length_pos_of_ne_nil hvs
        cases us with
        | nil => exact htwo hnext
        | cons u us => simp; omega
      · obtain ⟨hus', hvs'⟩ := hless hus hlength
        have hnext' : nextKind (vs ++ rest) = nextKind first.rest := by
          rw [hsplit]
          exact nextKind_append_of_ne_nil hvs _ _
        refine ⟨{ first with rest := vs ++ rest }, ?_, hagain' i hvs' rest⟩
        rw [List.append_assoc]
        exact hagain i hus' _ hnext'

/-- Other parsers do no worse if they are the same wherever their budget is not used up, and theirs is
not larger. -/
theorem reindex {budget' : κ → Nat} {q' : κ → Parser α} (h : EchoesAt next eats budget a b p q)
    (r : κ → ι) (hle : ∀ j, budget' j ≤ budget (r j))
    (heq : ∀ j, 0 < budget' j → q' j = q (r j)) : EchoesAt next eats budget' a b p q' where
  reads hnext hok := by
    obtain ⟨front, hsplit, hfront, hcross, hagain⟩ := h.reads hnext hok
    refine ⟨front, hsplit, hfront, hcross, fun j hlength rest hrest => ?_⟩
    rw [heq j (Nat.zero_lt_of_lt hlength)]
    exact hagain (r j) (Nat.lt_of_lt_of_le hlength (hle j)) rest hrest
  fails hnext herror hcause := by
    obtain ⟨front, behind, hsplit, hfront, htwo, henters, hagain⟩ := h.fails hnext herror hcause
    refine ⟨front, behind, hsplit, hfront, htwo, henters, fun j hlength rest => ?_⟩
    rw [heq j (Nat.zero_lt_of_lt hlength)]
    exact hagain (r j) (Nat.lt_of_lt_of_le hlength (hle j)) rest

/-- Less may be said of what is eaten. -/
theorem weaken (h : EchoesAt next eats' budget a b p q) (hle : eats = true → eats' = true) :
    EchoesAt next eats budget a b p q where
  reads hnext hok := by
    obtain ⟨front, heq, hfront, hread⟩ := h.reads hnext hok
    exact ⟨front, heq, fun heats => hfront (hle heats), hread⟩
  fails := h.fails

/-- What is read behind a parser, whatever is eaten there. -/
theorem bind (hp : EchoesAt next eats budget a b p q)
    (hf : ∀ x, Echoes false budget b c (f x) fun i => g i x) :
    EchoesAt next eats budget a c (p >>= f) fun i => q i >>= g i :=
  (hp.seq fun x next => (hf x next).reindex id (by simp) fun _ _ => rfl).weaken fun h => by simp [h]

/-- What is read behind a parser that need not eat. -/
theorem after (hp : EchoesAt next false budget a b p q)
    (hf : ∀ x, Echoes eats budget b c (f x) fun i => g i x) :
    EchoesAt next eats budget a c (p >>= f) fun i => q i >>= g i :=
  (hp.seq fun x next => (hf x next).reindex id (by simp) fun _ _ => rfl).weaken fun h => by simp [h]

/-- What is read behind a parser that eats, which may be less. -/
theorem eat (hp : EchoesAt next true budget a b p q)
    (hf : ∀ x, Echoes false (fun i => budget i - 1) b c (f x) fun i => g i x) :
    EchoesAt next true budget a c (p >>= f) fun i => q i >>= g i :=
  hp.seq hf

theorem pure (x : α) : EchoesAt next false budget a a (Pure.pure x) fun _ => Pure.pure x where
  reads hnext hok := by
    cases hok
    exact ⟨[], rfl, by simp, .of_shifts (.nil a), fun _ _ _ _ => rfl⟩
  fails _ herror := by cases herror

/-- A parser that fails, and not because something cannot be described. -/
theorem stop (h : ∀ tokens, nextKind tokens = next →
      ∃ e, p tokens = .error e ∧ e.cause.isUnsupported = false) :
    EchoesAt next eats budget a b p q where
  reads {tokens _} hnext hok := by
    obtain ⟨e, he, -⟩ := h tokens hnext
    rw [he] at hok
    cases hok
  fails {tokens _} hnext herror hcause := by
    obtain ⟨e, he, hnot⟩ := h tokens hnext
    rw [he] at herror
    cases herror
    rw [hcause] at hnot
    cases hnot

/-- What is given up before a token that decides it is given up again. -/
theorem giveUp {k : Kind} (hk : Inside a [k]) (hname : k ≠ .identifier) {e : Token → Failure}
    (hp : ∀ t rest, t.kind = k → p (t :: rest) = .error (e t))
    (hq : ∀ i t rest, t.kind = k → q i (t :: rest) = .error (e t)) :
    EchoesAt (some k) eats budget a b p q where
  reads {tokens _} hnext hok := by
    obtain ⟨t, rest, rfl, ht⟩ := exists_cons_of_nextKind hnext
    rw [hp t rest ht] at hok
    cases hok
  fails {tokens _} hnext herror _ := by
    obtain ⟨t, rest, rfl, ht⟩ := exists_cons_of_nextKind hnext
    rw [hp t rest ht] at herror
    cases herror
    refine ⟨[t], rest, rfl, by simp, fun h => absurd (Option.some.inj h) hname, ?_,
      fun i _ rest => hq i t rest ht⟩
    exact .of_inside (by simpa [ht] using hk)

/-- A condition that the parsers share. -/
theorem ite {c : Prop} [Decidable c] {p' : Parser α} {q' : ι → Parser α}
    (hyes : c → EchoesAt next eats budget a b p q)
    (hno : ¬c → EchoesAt next eats budget a b p' q') :
    EchoesAt next eats budget a b (if c then p else p') fun i => if c then q i else q' i := by
  by_cases hc : c
  · simpa only [if_pos hc] using hyes hc
  · simpa only [if_neg hc] using hno hc

/-- A token of a kind. -/
theorem expect {k : Kind} (what : Wanted) (hk : Shifts a b [k]) :
    EchoesAt next eats budget a b (Parser.expect k what) fun _ => Parser.expect k what where
  reads {tokens _} _ hok := by
    cases tokens with
    | nil => cases hok
    | cons t rest =>
      rw [Parser.expect] at hok
      split at hok
      next ht =>
        cases hok
        refine ⟨[t], rfl, by simp, .of_shifts (by simpa [ht] using hk), fun _ _ rest _ => ?_⟩
        simp [Parser.expect, ht]
      next => cases hok
  fails {tokens _} _ herror hcause := by
    cases tokens with
    | nil =>
      cases herror
      cases hcause
    | cons t rest =>
      rw [Parser.expect] at herror
      split at herror
      next => cases herror
      next =>
        cases herror
        cases hcause

/-- What is known of the parsers on tokens that begin like this. -/
theorem congr {p' : Parser α} {q' : ι → Parser α} (h : EchoesAt next eats budget a b p' q')
    (hp : ∀ tokens, nextKind tokens = next → p tokens = p' tokens)
    (hq : ∀ i tokens, nextKind tokens = next → q i tokens = q' i tokens) :
    EchoesAt next eats budget a b p q where
  reads {tokens _} hnext hok := by
    rw [hp tokens hnext] at hok
    obtain ⟨front, rfl, hfront, hcross, hagain⟩ := h.reads hnext hok
    refine ⟨front, rfl, hfront, hcross, fun i hlength rest hrest => ?_⟩
    rw [hq i _ (by rw [nextKind_append_congr hrest, hnext])]
    exact hagain i hlength rest hrest
  fails {tokens _} hnext herror hcause := by
    rw [hp tokens hnext] at herror
    obtain ⟨front, behind, rfl, hfront, htwo, henters, hagain⟩ := h.fails hnext herror hcause
    refine ⟨front, behind, rfl, hfront, htwo, henters, fun i hlength rest => ?_⟩
    rw [hq i _ (by rw [nextKind_append_of_ne_nil hfront rest behind, hnext])]
    exact hagain i hlength rest

/-- Parsers that pass over the same tokens before they go on, or stop there. -/
theorem pass (h : ∀ tokens, nextKind tokens = next →
      (∃ e, p tokens = .error e ∧ e.cause.isUnsupported = false) ∨
      ∃ front rest p' q', tokens = front ++ rest ∧ front ≠ [] ∧ Crosses a c front rest ∧
        p tokens = p' rest ∧ (∀ i rest', q i (front ++ rest') = q' i rest') ∧
        Echoes false (fun i => budget i - 1) c b p' q') :
    EchoesAt next eats budget a b p q where
  reads {tokens parsed} hnext hok := by
    rcases h tokens hnext with ⟨e, he, -⟩ | ⟨us, rest, p', q', rfl, hus, hcross, hp, hq, hecho⟩
    · rw [he] at hok
      cases hok
    · rw [hp] at hok
      obtain ⟨vs, rfl, -, hcross', hagain⟩ := (hecho _).reads rfl hok
      refine ⟨us ++ vs, by rw [List.append_assoc], by simp [hus], hcross.append hcross',
        fun i hlength rest' hrest => ?_⟩
      have hpos := List.length_pos_of_ne_nil hus
      rw [List.length_append] at hlength
      rw [List.append_assoc, hq]
      exact hagain i (by omega) rest' hrest
  fails {tokens e} hnext herror hcause := by
    rcases h tokens hnext with ⟨e', he, hnot⟩ | ⟨us, rest, p', q', rfl, hus, hcross, hp, hq, hecho⟩
    · rw [he] at herror
      cases herror
      rw [hcause] at hnot
      cases hnot
    · rw [hp] at herror
      obtain ⟨vs, behind, rfl, hvs, -, henters, hagain⟩ := (hecho _).fails rfl herror hcause
      have hpos := List.length_pos_of_ne_nil hus
      have hpos' := List.length_pos_of_ne_nil hvs
      refine ⟨us ++ vs, behind, by rw [List.append_assoc], by simp [hus], fun _ => ?_,
        hcross.append_enters henters, fun i hlength rest' => ?_⟩
      · rw [List.length_append]
        omega
      · rw [List.length_append] at hlength
        rw [List.append_assoc, hq]
        exact hagain i (by omega) rest'

/-- Parsers that pass over a token. -/
theorem step {k : Kind} {p' : Parser α} {q' : ι → Parser α} (hk : Shifts a c [k])
    (hp : ∀ t rest, t.kind = k → p (t :: rest) = p' rest)
    (hq : ∀ i t rest, t.kind = k → q i (t :: rest) = q' i rest)
    (h : Echoes false (fun i => budget i - 1) c b p' q') :
    EchoesAt (some k) eats budget a b p q := by
  refine pass (c := c) fun tokens hnext => .inr ?_
  obtain ⟨t, rest, rfl, ht⟩ := exists_cons_of_nextKind hnext
  exact ⟨[t], rest, p', q', rfl, by simp, .of_shifts (by simpa [ht] using hk), hp t rest ht,
    fun i rest' => hq i t rest' ht, h⟩

/-- A token of a known kind is passed, and what is read behind it may have one round less. -/
theorem skip {k : Kind} {f : Unit → Parser β} {g : ι → Unit → Parser β} (hk : Shifts a c [k])
    (h : Echoes false (fun i => budget i - 1) c b (f ()) fun i => g i ()) :
    EchoesAt (some k) eats budget a b (Parser.skip >>= f) fun i => Parser.skip >>= g i :=
  step hk (fun _ _ _ => bind_of_ok rfl) (fun _ _ _ _ => bind_of_ok rfl) h

/-- Parsers that look past a name at the kind of the token behind it. -/
theorem lookPast {f : Option Kind → Parser α} {g : ι → Option Kind → Parser α}
    (hp : ∀ t rest, t.kind = .identifier → p (t :: rest) = f (nextKind rest) (t :: rest))
    (hq : ∀ i t rest, t.kind = .identifier → q i (t :: rest) = g i (nextKind rest) (t :: rest))
    (h : ∀ n, EchoesAt (some .identifier) true budget a b (f n) fun i => g i n) :
    EchoesAt (some .identifier) true budget a b p q where
  reads {tokens parsed} hnext hok := by
    obtain ⟨t, ts, rfl, ht⟩ := exists_cons_of_nextKind hnext
    rw [hp t ts ht] at hok
    obtain ⟨front, heq, hfront, hcross, hagain⟩ := (h _).reads hnext hok
    refine ⟨front, heq, hfront, hcross, fun i hlength rest hrest => ?_⟩
    obtain ⟨u, us, rfl⟩ := List.exists_cons_of_ne_nil (hfront rfl)
    obtain ⟨rfl, rfl⟩ := List.cons_eq_cons.1 heq
    rw [List.cons_append, hq i t _ ht, nextKind_append_congr hrest]
    exact hagain i hlength rest hrest
  fails {tokens e} hnext herror hcause := by
    obtain ⟨t, ts, rfl, ht⟩ := exists_cons_of_nextKind hnext
    rw [hp t ts ht] at herror
    obtain ⟨front, behind, heq, hfront, htwo, henters, hagain⟩ := (h _).fails hnext herror hcause
    refine ⟨front, behind, heq, hfront, htwo, henters, fun i hlength rest => ?_⟩
    obtain ⟨u, us, rfl⟩ := List.exists_cons_of_ne_nil hfront
    obtain ⟨rfl, rfl⟩ := List.cons_eq_cons.1 heq
    have hus : us ≠ [] := by
      rintro rfl
      simpa using htwo rfl
    rw [List.cons_append, hq i t _ ht, nextKind_append_of_ne_nil hus rest behind]
    exact hagain i hlength rest

/-- Looking past the first token. -/
theorem peek_one_cons (f : Option Kind → Parser β) (t : Token) (rest : List Token) :
    (Parser.peek 1 >>= f) (t :: rest) = f (nextKind rest) (t :: rest) := by
  refine bind_of_ok ?_
  rw [Parser.peek, nextKind, List.head?_eq_getElem?]
  rfl

/-- The second token may be looked at where the first one is a name, since the name is read in any
case. -/
theorem peekSecond {f : Option Kind → Parser β} {g : ι → Option Kind → Parser β}
    (h : ∀ n, EchoesAt (some .identifier) true budget a b (f n) fun i => g i n) :
    EchoesAt (some .identifier) true budget a b (Parser.peek 1 >>= f) fun i =>
      Parser.peek 1 >>= g i :=
  lookPast (fun t rest _ => peek_one_cons f t rest) (fun i t rest _ => peek_one_cons (g i) t rest) h

/-- The place of the next token is known again, if this token is read. -/
theorem here {f : Option Position → Parser β} {g : ι → Option Position → Parser β}
    (h : ∀ pos, EchoesAt next true budget a b (f pos) fun i => g i pos) :
    EchoesAt next true budget a b (Parser.here >>= f) fun i => Parser.here >>= g i := by
  have hhere (h : Option Position → Parser β) (tokens : List Token) :
      (Parser.here >>= h) tokens = h (tokens.head?.map Token.pos) tokens := bind_of_ok rfl
  have hhead {front : List Token} (hfront : front ≠ []) (rest rest' : List Token) :
      (front ++ rest).head?.map Token.pos = (front ++ rest').head?.map Token.pos := by
    cases front with
    | nil => exact absurd rfl hfront
    | cons t front => rfl
  constructor
  · rintro tokens parsed hnext hok
    rw [hhere] at hok
    obtain ⟨front, rfl, hfront, hcross, hagain⟩ := (h _).reads hnext hok
    refine ⟨front, rfl, hfront, hcross, fun i hlength rest hrest => ?_⟩
    rw [hhere, hhead (hfront rfl) rest parsed.rest]
    exact hagain i hlength rest hrest
  · rintro tokens e hnext herror hcause
    rw [hhere] at herror
    obtain ⟨front, behind, rfl, hfront, htwo, henters, hagain⟩ := (h _).fails hnext herror hcause
    refine ⟨front, behind, rfl, hfront, htwo, henters, fun i hlength rest => ?_⟩
    rw [hhere, hhead hfront rest behind]
    exact hagain i hlength rest

/-- Inside a delimiter any number of semicolons shift nothing. -/
theorem shifts_semicolons (tokens : List Token) :
    Shifts (a + 1) (a + 1) ((tokens.takeWhile (·.kind = .semicolon)).map Token.kind) := by
  induction tokens with
  | nil => exact .nil _
  | cons t tokens ih =>
    rw [List.takeWhile_cons]
    split
    next ht =>
      have hkind : t.kind = .semicolon := by simpa using ht
      rw [List.map_cons, hkind]
      exact Shifts.semicolon.append ih
    next => exact .nil _

/-- Inside a delimiter, semicolons are passed again. -/
theorem skipSemicolons :
    EchoesAt next false budget (a + 1) (a + 1) Parser.skipSemicolons fun _ =>
      Parser.skipSemicolons where
  reads {tokens _} _ hok := by
    cases hok
    refine ⟨tokens.takeWhile (·.kind = .semicolon), List.takeWhile_append_dropWhile.symm, by simp,
      .of_shifts (shifts_semicolons tokens), fun _ _ rest hrest => ?_⟩
    have hstop : rest.dropWhile (·.kind = .semicolon) = rest := by
      have hnot : nextKind rest ≠ some .semicolon := by
        have hhead := List.head?_dropWhile_not (fun t : Token => decide (t.kind = .semicolon)) tokens
        rw [hrest, nextKind]
        dsimp only
        cases hdrop : tokens.dropWhile (·.kind = .semicolon) with
        | nil => simp
        | cons u us =>
          rw [hdrop] at hhead
          simpa using hhead
      cases rest with
      | nil => rfl
      | cons u us =>
        have hu : u.kind ≠ .semicolon := by simpa [nextKind] using hnot
        simp [hu]
    have hall : ∀ t ∈ tokens.takeWhile (·.kind = .semicolon), decide (t.kind = .semicolon) = true :=
      fun t ht => by simpa using List.mem_takeWhile_imp ht
    rw [Parser.skipSemicolons, List.dropWhile_append_of_pos hall, hstop]
  fails _ herror := by cases herror

end EchoesAt

namespace Echoes

/-- Asking for the kind of the next token. -/
theorem peek {f : Option Kind → Parser β} {g : ι → Option Kind → Parser β}
    (h : ∀ next, EchoesAt next eats budget a b (f next) fun i => g i next) :
    Echoes eats budget a b (Parser.peek 0 >>= f) fun i => Parser.peek 0 >>= g i := by
  have hpeek (h : Option Kind → Parser β) (tokens : List Token) :
      (Parser.peek 0 >>= h) tokens = h (nextKind tokens) tokens := by
    rw [bind_of_ok (show Parser.peek 0 tokens = .ok ⟨tokens[0]?.map Token.kind, [], tokens⟩ from rfl),
      nextKind, List.head?_eq_getElem?]
  exact fun next => (h next).congr (fun tokens htokens => by rw [hpeek, htokens])
    fun i tokens htokens => by rw [hpeek, htokens]

/-- Asking whether the next token is of a kind. -/
theorem at? {k : Kind} {f : Bool → Parser β} {g : ι → Bool → Parser β}
    (h : ∀ next, EchoesAt next eats budget a b (f (next == some k)) fun i => g i (next == some k)) :
    Echoes eats budget a b (Parser.at? k >>= f) fun i => Parser.at? k >>= g i := by
  have hat (h : Bool → Parser β) (tokens : List Token) :
      (Parser.at? k >>= h) tokens = h (nextKind tokens == some k) tokens := by
    rw [bind_of_ok (show Parser.at? k tokens = .ok ⟨tokens[0]?.map Token.kind == some k, [], tokens⟩
        from rfl), nextKind, List.head?_eq_getElem?]
  exact fun next => (h next).congr (fun tokens htokens => by rw [hat, htokens])
    fun i tokens htokens => by rw [hat, htokens]

/-- Reading a token if it is of a kind. -/
theorem accept {k : Kind} {f : Bool → Parser β} {g : ι → Bool → Parser β} (hk : Shifts a c [k])
    (hyes : Echoes false budget c b (f true) fun i => g i true)
    (hno : Echoes eats budget a b (f false) fun i => g i false) :
    Echoes eats budget a b (Parser.accept k >>= f) fun i => Parser.accept k >>= g i := by
  intro next
  by_cases hnext : next = some k
  · subst hnext
    exact .step hk (fun t rest ht => bind_of_ok (accept_of_eq ht rest))
      (fun i t rest ht => bind_of_ok (accept_of_eq ht rest))
      fun next => (hyes next).reindex id (by simp) fun _ _ => rfl
  · refine (hno next).congr (fun tokens htokens => ?_) fun i tokens htokens => ?_
    · exact bind_of_ok (accept_of_ne (htokens ▸ hnext))
    · exact bind_of_ok (accept_of_ne (htokens ▸ hnext))

/-- A parser with a budget of its own, which is enough for all tokens. -/
theorem bounded {p : Nat → Parser α} {q : ι → Nat → Parser α}
    (h : ∀ n, Echoes eats (fun i : ι × Nat => min i.2 (budget i.1)) a b (p n) fun i => q i.1 i.2) :
    Echoes eats budget a b (Parser.bounded p) fun i => Parser.bounded (q i) := by
  have hless {front rest : List Token} {n : Nat} (hlength : front.length < n) :
      front.length < min ((front ++ rest).length + 1) n := by
    rw [List.length_append]
    omega
  intro next
  constructor
  · intro tokens parsed hnext hok
    obtain ⟨front, rfl, hfront, hcross, hagain⟩ := (h _ next).reads hnext hok
    refine ⟨front, rfl, hfront, hcross, fun i hlength rest hrest => ?_⟩
    exact hagain (i, _) (hless hlength) rest hrest
  · intro tokens e hnext herror hcause
    obtain ⟨front, behind, rfl, hfront, htwo, henters, hagain⟩ := (h _ next).fails hnext herror hcause
    refine ⟨front, behind, rfl, hfront, htwo, henters, fun i hlength rest => ?_⟩
    exact hagain (i, _) (hless hlength) rest

end Echoes

end

end Parser

end Multicast.Syntax
