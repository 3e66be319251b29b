import Multicast.Proofs.Header
import Multicast.Proofs.Rounds

/-!
# Places between declarations

A file is read in rounds, and between two of them the reader stands at some stage, with a part of the
file behind it (`Reaches`). Where a type may be declared, this part has been read for good: with
anything else ahead, the reader comes to the same place, having made the same declarations of it
(`Reaches.again`). Only the types that cannot be described have to keep their delimiters in step, so
that the attempts to read them stay where they belong.

Every declaration of a file that is read is made in a round from such a place
(`exists_reaches_of_lt`), and there are four kinds of rounds that declare something (`Introduces`).

## Why what has been read is over

A round reads a part of the tokens and looks at the token behind it. At a place for a type the last token
that was read has ended something, so that the look is not needed; what is ahead may then be anything. For
types that cannot be described this has to be bought: the attempt to read one may have gone on beyond the
end of its declaration, if the brackets in it are out of step. With the condition `Declaration.Matched` it
has not, and the round is made again whatever is ahead.

So `Reaches` is a relation that can be cut and put together: a file is read up to a place, and from there
on.
-/

namespace Multicast.Syntax

open Source Multicast.Syntax.Parser

section

variable {scope : Scope}

/-! ### Reading from a stage

Declarations are added at the front, so what is read from a stage is what the rounds declare, and then
what is read from the place behind them. -/

/-- Reads from a stage up to the end of the file. -/
def reading (scope : Scope) (s : Stage) : Parser (List Declaration) :=
  bounded fun n => rounds scope n s

/-- What is read behind other declarations. -/
def Parsed.behind (ds : List Declaration) (references : List Reference)
    (parsed : Parsed (List Declaration)) : Parsed (List Declaration) :=
  ⟨ds ++ parsed.value, references ++ parsed.references, parsed.rest⟩

/-- What is read in a first round and behind it. -/
theorem bind_eq_map {s : Stage} {tokens : List Token} {first : Parsed (List Declaration × Stage)}
    (h : round scope s tokens = .ok first) :
    (round scope s >>= fun first => reading scope first.2 >>= fun more => pure (first.1 ++ more)) tokens =
      (reading scope first.value.2 first.rest).map (Parsed.behind first.value.1 first.references) := by
  change (round scope s >>= _).run tokens = _
  rw [run_bind, run, h]
  dsimp only
  rw [run_bind, run]
  cases reading scope first.value.2 first.rest with
  | error e => rfl
  | ok more => simp [Except.map, Parsed.behind, run, Pure.pure, done]

theorem round_length {s : Stage} {tokens : List Token} {parsed : Parsed (List Declaration × Stage)}
    (h : round scope s tokens = .ok parsed) : parsed.rest.length < tokens.length := by
  obtain ⟨front, rfl, hfront, -⟩ := repeats_round s tokens parsed h
  have hpos := List.length_pos_of_ne_nil (hfront rfl)
  rw [List.length_append]
  omega

/-- The budget does not matter if it exceeds the number of tokens. -/
theorem rounds_congr {n m : Nat} {s : Stage} {tokens : List Token} (hn : tokens.length < n)
    (hm : tokens.length < m) : rounds scope n s tokens = rounds scope m s tokens := by
  induction n generalizing m s tokens with
  | zero => cases hn
  | succ n ih =>
    obtain ⟨m, rfl⟩ := Nat.exists_eq_succ_of_ne_zero (Nat.ne_zero_of_lt hm)
    have hround (k : Nat) : rounds scope (k + 1) s tokens =
        if tokens.isEmpty && s.mayEnd then .ok ⟨[], [], tokens⟩
        else (round scope s >>= fun first => rounds scope k first.2 >>= fun more =>
          pure (first.1 ++ more)) tokens := by
      cases tokens with
      | nil => cases hs : s.mayEnd <;> simp [rounds, hs] <;> rfl
      | cons t rest => exact rounds_cons k s t rest
    rw [hround, hround]
    split
    · rfl
    · refine bind_congr_at fun first hfirst => bind_congr_first ?_
      have hlength := round_length hfirst
      exact ih (by omega) (by omega)

theorem reading_nil {s : Stage} (hs : s.mayEnd = true) :
    reading scope s [] = .ok ⟨[], [], []⟩ := by
  rw [reading, bounded, rounds]
  simp [hs]
  rfl

/-- **The file is read in rounds.** -/
theorem reading_cons (s : Stage) (t : Token) (rest : List Token) :
    reading scope s (t :: rest) = (round scope s >>= fun first => reading scope first.2 >>= fun more =>
      pure (first.1 ++ more)) (t :: rest) := by
  rw [reading, bounded, rounds_cons]
  refine bind_congr_at fun first hfirst => bind_congr_first ?_
  exact rounds_congr (round_length hfirst) (Nat.lt_succ_self _)

theorem bounded_declarations : bounded (declarations scope) = reading scope .file := by
  funext tokens
  exact declarations_eq_rounds (Nat.lt_succ_self _) (Nat.lt_succ_self _)

/-- What it takes to read up to the end of the file: nothing is left, or there is a first round. -/
theorem reading_eq_ok_iff {s : Stage} {tokens : List Token} {parsed : Parsed (List Declaration)} :
    reading scope s tokens = .ok parsed ↔
      (tokens = [] ∧ s.mayEnd = true ∧ parsed = ⟨[], [], []⟩) ∨
      ∃ first more, round scope s tokens = .ok first ∧
        reading scope first.value.2 first.rest = .ok more ∧
          parsed = more.behind first.value.1 first.references := by
  cases tokens with
  | nil =>
    have hnot : ∀ first, round scope s [] ≠ .ok first := fun first h => by cases h
    cases hs : s.mayEnd with
    | true => simp [reading_nil hs, hnot, eq_comm]
    | false =>
      -- at the end of the file inside a group, the parenthesis is missed
      have hfails : reading scope s [] = .error ⟨none, .expected .rightParen "EOF"⟩ := by
        rw [reading, bounded, rounds]
        simp [hs]
        rfl
      simp [hfails, hnot]
  | cons t rest =>
    cases hround : round scope s (t :: rest) with
    | error e =>
      have hfails : reading scope s (t :: rest) = .error e := by
        rw [reading_cons]
        exact bind_eq_error.2 (.inl hround)
      simp [hfails]
    | ok first =>
      -- rounds go on behind the first one, with its declarations in front
      rw [reading_cons, bind_eq_map hround]
      constructor
      · intro h
        obtain ⟨more, hmore, rfl⟩ : ∃ more, reading scope first.value.2 first.rest = .ok more ∧
            more.behind first.value.1 first.references = parsed := by
          cases hmore : reading scope first.value.2 first.rest with
          | error e => rw [hmore] at h; cases h
          | ok more =>
            rw [hmore] at h
            exact ⟨more, rfl, Except.ok.inj h⟩
        exact .inr ⟨first, more, rfl, hmore, rfl⟩
      · rintro (⟨⟨⟩, -⟩ | ⟨first', more, heq, hmore, rfl⟩)
        cases heq
        rw [hmore]
        rfl

/-- No import stands where declarations are read. -/
theorem nextKind_of_reading {tokens : List Token} {parsed : Parsed (List Declaration)}
    (h : reading scope .file tokens = .ok parsed) : nextKind tokens ≠ some (.keyword .importKw) := by
  intro himport
  rcases reading_eq_ok_iff.1 h with ⟨rfl, -, -⟩ | ⟨first, _, hfirst, -, -⟩
  · cases himport
  · rw [round_of_nextKind _ himport] at hfirst
    cases hfirst

/-- **Reading up to a place**: from a stage, with some tokens ahead, the reader comes to another stage,
with the last ones of them ahead, and makes declarations and reports references on the way. -/
inductive Reaches (scope : Scope) : Stage → List Token → List Declaration → List Reference →
    Stage → List Token → Prop
  | here {s tokens} : Reaches scope s tokens [] [] s tokens
  | round {s tokens first ds references s' rest} (hfirst : round scope s tokens = .ok first)
    (hmore : Reaches scope first.value.2 first.rest ds references s' rest) :
    Reaches scope s tokens (first.value.1 ++ ds) (first.references ++ references) s' rest

variable {s s' : Stage} {tokens rest : List Token} {ds : List Declaration}
  {references : List Reference}

/-- Some rounds in a row: what they declare, the stage behind them, and the tokens ahead. -/
def roundsAhead (scope : Scope) : Nat → Stage → List Token →
    Option (List Declaration × Stage × List Token)
  | 0, s, tokens => some ([], s, tokens)
  | n + 1, s, tokens => (round scope s tokens).toOption.bind fun first =>
    (roundsAhead scope n first.value.2 first.rest).map fun behind =>
      (first.value.1 ++ behind.1, behind.2)

theorem exists_reaches_of_roundsAhead {n : Nat}
    (h : roundsAhead scope n s tokens = some (ds, s', rest)) :
    ∃ references, Reaches scope s tokens ds references s' rest := by
  induction n generalizing s tokens ds with
  | zero =>
    cases h
    exact ⟨[], .here⟩
  | succ n ih =>
    obtain ⟨first, hfirst, hbehind⟩ := Option.bind_eq_some_iff.1 h
    obtain ⟨⟨ds, s', rest⟩, hmore, heq⟩ := Option.map_eq_some_iff.1 hbehind
    cases heq
    obtain ⟨references, hreaches⟩ := ih hmore
    exact ⟨_, .round (eq_ok_of_toOption hfirst) hreaches⟩

/-- From a place on, the file is read as from there. -/
theorem Reaches.reading_eq (h : Reaches scope s tokens ds references s' rest) :
    reading scope s tokens = (reading scope s' rest).map (Parsed.behind ds references) := by
  induction h with
  | here =>
    cases reading scope _ _ <;> rfl
  | @round s tokens first ds references s' rest hfirst hmore ih =>
    cases tokens with
    | nil => cases hfirst
    | cons t tokens =>
      rw [reading_cons, bind_eq_map hfirst, ih]
      cases hread : reading scope s' rest with
      | error e => rfl
      | ok parsed => simp [Except.map, Parsed.behind]

/-- What ends a spec: a semicolon, or the parenthesis that closes its group. -/
theorem round_behind_eq_ok {grouped : Bool} {t : Token} {first : Parsed (List Declaration × Stage)}
    (h : round scope (.behind grouped) (t :: rest) = .ok first) :
    (t.kind = .semicolon ∧ first = ⟨([], if grouped then .group else .file), [], rest⟩) ∨
      (t.kind = .rightParen ∧ grouped = true ∧ first = ⟨([], .behind false), [], rest⟩) := by
  rw [round_of_nextKind _ rfl] at h
  cases hkind : t.kind with
  | semicolon =>
    rw [hkind] at h
    exact .inl ⟨rfl, (Except.ok.inj h).symm⟩
  | rightParen =>
    rw [hkind] at h
    cases grouped with
    | false => cases h
    | true => exact .inr ⟨rfl, rfl, (Except.ok.inj h).symm⟩
  | _ =>
    rw [hkind] at h
    cases grouped <;> cases h

theorem ends_of_behind {grouped : Bool} {parsed : Parsed (List Declaration × Stage)}
    (h : round scope (.behind grouped) tokens = .ok parsed) : EndsDeclaration (nextKind tokens) := by
  cases tokens with
  | nil => cases h
  | cons t rest =>
    rintro kind ⟨⟩
    rcases round_behind_eq_ok h with ⟨ht, -⟩ | ⟨ht, -, -⟩
    · exact .inl ht
    · exact .inr (by rw [ht]; rfl)

/-- Behind a declaration that ends there, a place comes with what ends it. -/
theorem Reaches.ends {grouped : Bool}
    (h : Reaches scope (.behind grouped) tokens ds references s' rest) (hplace : s'.isPlace = true) :
    EndsDeclaration (nextKind tokens) := by
  cases h with
  | here => cases hplace
  | round hfirst _ => exact ends_of_behind hfirst

/-- **What has been read up to a place for a type is over**: whatever is ahead instead, the reader comes
to the same place. -/
theorem Reaches.again (h : Reaches scope s tokens ds references s' rest) (hplace : s'.isPlace = true)
    (hmatched : ∀ d ∈ ds, d.Matched tokens) :
    ∃ before, tokens = before ++ rest ∧ (s.isPlace = false → before ≠ []) ∧
      ∀ rest', Reaches scope s (before ++ rest') ds references s' rest' := by
  induction h with
  | here => exact ⟨[], rfl, by simp [hplace], fun _ => .here⟩
  | @round s tokens first ds references s' rest hfirst hmore ih =>
    obtain ⟨front, rfl, hfront, hagain⟩ := repeats_round s tokens first hfirst
    obtain ⟨before, hsplit, hbefore, hall⟩ := ih hplace fun d hd =>
      (hmatched d (List.mem_append_right _ hd)).of_suffix (List.suffix_append _ _)
    refine ⟨front ++ before, by rw [List.append_assoc, ← hsplit], by simp [hfront rfl], fun rest' => ?_⟩
    have hends : ∀ grouped, first.value.2 = .behind grouped →
        EndsDeclaration (nextKind first.rest) := by
      intro grouped hstage
      rw [hstage] at hmore
      exact hmore.ends hplace
    have hnext : first.value.2.isPlace = true ∨ nextKind (before ++ rest') = nextKind first.rest := by
      cases hstage : first.value.2.isPlace with
      | true => exact .inl rfl
      | false =>
        rw [hsplit]
        exact .inr (nextKind_append_of_ne_nil (hbefore hstage) _ _)
    have hround := hagain hends (fun d hd => hmatched d (List.mem_append_left _ hd)) _ hnext
    rw [List.append_assoc]
    exact (Reaches.round hround (hall rest') :)

/-- **Every declaration is made in a round**, and the rest of the file is read behind that round. -/
theorem exists_reaches_of_lt {parsed : Parsed (List Declaration)} {i : Nat}
    (h : reading scope s tokens = .ok parsed) (hi : i < parsed.value.length) :
    ∃ ds references s' rest first more, Reaches scope s tokens ds references s' rest ∧
      round scope s' rest = .ok first ∧ reading scope first.value.2 first.rest = .ok more ∧
        parsed = (more.behind first.value.1 first.references).behind ds references ∧
          ds.length ≤ i ∧ i < ds.length + first.value.1.length := by
  induction hn : tokens.length using Nat.strong_induction_on generalizing s tokens parsed i with
  | _ n ih =>
    subst hn
    rcases reading_eq_ok_iff.1 h with ⟨-, -, rfl⟩ | ⟨first, more, hfirst, hmore, rfl⟩
    · cases hi
    · by_cases hlt : i < first.value.1.length
      · exact ⟨[], [], s, tokens, first, more, .here, hfirst, hmore, by simp [Parsed.behind],
          Nat.zero_le i, by simpa using hlt⟩
      · have hless : i - first.value.1.length < more.value.length := by
          simp only [Parsed.behind, List.length_append] at hi
          omega
        obtain ⟨ds, references, s', rest, first', more', hreaches, hround, hread, rfl, hle, hlt'⟩ :=
          ih _ (round_length hfirst) hmore hless rfl
        refine ⟨first.value.1 ++ ds, first.references ++ references, s', rest, first', more',
          .round hfirst hreaches, hround, hread, by simp [Parsed.behind], ?_, ?_⟩
        all_goals
          rw [List.length_append]
          omega

/-! ### What declares something

The kinds of rounds that declare something are the reading of the four kinds of specs. All other rounds
move from one stage to another. -/

/-- A function is declared as one, and not by a blank name. -/
theorem declared_of_funcHead {parsed : Parsed (List Declaration)} (h : funcHead tokens = .ok parsed) :
    ∀ d ∈ parsed.value, d.object.kind = .func ∧ d.object.name ≠ "_" := by
  obtain ⟨_, _, -, hbehind, rfl⟩ := bind_eq_ok.1 h
  obtain ⟨_, _, -, hend, rfl⟩ := bind_eq_ok.1 hbehind
  obtain ⟨_, -, rfl⟩ := bind_pure_eq_ok.1 hend
  intro d hd
  split at hd
  · cases hd
  next hnamed =>
    obtain rfl := List.mem_singleton.1 hd
    simp only [Bool.or_eq_true, decide_eq_true_eq, not_or] at hnamed
    exact ⟨rfl, hnamed.1.2⟩

theorem declared_of_valueHead {kind : ObjectKind} {parsed : Parsed (List Declaration)}
    (h : valueHead kind tokens = .ok parsed) :
    ∀ d ∈ parsed.value, d.object.kind = kind ∧ d.object.name ≠ "_" := by
  obtain ⟨_, _, -, hend, rfl⟩ := bind_eq_ok.1 h
  obtain ⟨_, -, rfl⟩ := bind_pure_eq_ok.1 hend
  intro d hd
  obtain ⟨t, ht, rfl⟩ := List.mem_map.1 hd
  exact ⟨rfl, by simpa using (List.mem_filter.1 ht).2⟩

theorem declared_of_groupRest {kind : ObjectKind} {n : Nat} {parsed : Parsed (List (List Declaration))}
    (h : groupRest (valueSpec kind) n tokens = .ok parsed) :
    ∀ d ∈ parsed.value.flatten, d.object.kind = kind ∧ d.object.name ≠ "_" := by
  induction n generalizing tokens parsed with
  | zero => cases h
  | succ n ih =>
    obtain ⟨_, _, -, hbehind, rfl⟩ := bind_eq_ok.1 h
    obtain ⟨⟨closed, _, _⟩, _, -, hrest, rfl⟩ := bind_eq_ok.1 hbehind
    cases closed with
    | true =>
      cases hrest
      simp
    | false =>
      obtain ⟨⟨next, _, _⟩, _, -, hspecs, rfl⟩ := bind_eq_ok.1 hrest
      cases next with
      | none => cases hspecs
      | some _ =>
        obtain ⟨ds, _, hds, hmore, rfl⟩ := bind_eq_ok.1 hspecs
        obtain ⟨more, hothers, rfl⟩ := bind_pure_eq_ok.1 hmore
        rw [valueSpec_eq] at hds
        obtain ⟨first, _, hfirst, hend, rfl⟩ := bind_eq_ok.1 hds
        obtain ⟨_, -, rfl⟩ := bind_pure_eq_ok.1 hend
        intro d hd
        rcases List.mem_append.1 (List.flatten_cons ▸ hd) with hd | hd
        · exact declared_of_valueHead hfirst d hd
        · exact ih hothers d hd

/-- Variables and constants are declared as such, and not by blank names. -/
theorem declared_of_values {kind : ObjectKind} {parsed : Parsed (List Declaration × Stage)}
    (h : values kind tokens = .ok parsed) :
    ∀ d ∈ parsed.value.1, d.object.kind = kind ∧ d.object.name ≠ "_" := by
  obtain ⟨⟨opened, _, _⟩, _, -, hrest, rfl⟩ := bind_eq_ok.1 h
  cases opened with
  | true =>
    obtain ⟨_, hspecs, rfl⟩ := bind_pure_eq_ok.1 hrest
    exact declared_of_groupRest hspecs
  | false =>
    obtain ⟨_, hhead, rfl⟩ := bind_pure_eq_ok.1 hrest
    exact declared_of_valueHead hhead

/-- **The rounds that declare something**: with a type, outside of a group or in one, with a function, or
with variables or constants. -/
inductive Introduces (scope : Scope) :
    Stage → List Token → Parsed (List Declaration × Stage) → Declaration → Prop
  | type {t rest made} (ht : t.kind = .keyword .typeKw) (hmade : declaredType scope rest = .ok made) :
    Introduces scope .file (t :: rest) ⟨([made.value], .behind false), made.references, made.rest⟩
      made.value
  | grouped {tokens made} (hmade : declaredType scope tokens = .ok made) :
    Introduces scope .group tokens ⟨([made.value], .behind true), made.references, made.rest⟩ made.value
  | func {t rest head d} (hhead : funcHead rest = .ok head) (hd : d ∈ head.value) :
    Introduces scope .file (t :: rest) ⟨(head.value, .skipped), head.references, head.rest⟩ d
  | values {t rest kind first d} (hkind : kind = .var ∨ kind = .const)
    (hvalues : values kind rest = .ok first) (hd : d ∈ first.value.1) :
    Introduces scope .file (t :: rest) first d

theorem introduces_of_round {first : Parsed (List Declaration × Stage)} {d : Declaration}
    (h : round scope s tokens = .ok first) (hd : d ∈ first.value.1) :
    Introduces scope s tokens first d := by
  cases tokens with
  | nil => cases h
  | cons t rest =>
    rw [round_of_nextKind s rfl] at h
    generalize hp : roundFrom scope s t.kind = p at h
    unfold roundFrom at hp
    split at hp <;> subst hp
    case h_2 hkw =>
      rw [skip_cons] at h
      by_cases hopens : nextKind rest = some .leftParen
      · obtain ⟨u, rest, rfl, hu⟩ := exists_cons_of_nextKind hopens
        rw [bind_of_ok (accept_of_eq hu rest)] at h
        cases h
        cases hd
      · rw [bind_of_ok (accept_of_ne hopens)] at h
        obtain ⟨made, hmade, rfl⟩ := bind_pure_eq_ok.1 h
        obtain rfl := List.mem_singleton.1 hd
        exact .type hkw hmade
    case h_3 =>
      rw [skip_cons] at h
      obtain ⟨head, hhead, rfl⟩ := bind_pure_eq_ok.1 h
      exact .func hhead hd
    case h_4 =>
      rw [skip_cons] at h
      exact .values (.inl rfl) h hd
    case h_5 =>
      rw [skip_cons] at h
      exact .values (.inr rfl) h hd
    case h_10 =>
      obtain ⟨made, hmade, rfl⟩ := bind_pure_eq_ok.1 h
      obtain rfl := List.mem_singleton.1 hd
      exact .grouped hmade
    -- in all other rounds a token is skipped, or nothing can be read
    all_goals
      cases h
      try cases hd

/-! ### Types that cannot be described -/

/-- What declares a type is its name, and behind it the tokens up to the end of the declaration. -/
structure Declaration.IsMade (d : Declaration) (declared : Token) (body : List Token) : Prop where
  name : declared.kind = .identifier ∧ declared.text = d.object.name
  pos : declared.pos = d.pos
  body : nest 0 (body.map Token.kind) = some 0

/-- A name whose type cannot be described is declared without reporting anything. -/
theorem isMade_of_unsupported {parsed : Parsed Declaration} {reason : String}
    (h : declaredType scope tokens = .ok parsed) (hkind : parsed.value.object.kind = .unsupported reason) :
    parsed.references = [] ∧ ∃ declared body, tokens = declared :: (body ++ parsed.rest) ∧
      parsed.value.IsMade declared body := by
  obtain ⟨t, behind, kind, rfl, ht, hread, rfl⟩ := declaredType_eq_ok_iff.1 h
  rcases typeKind_eq_ok_iff.1 hread with ⟨-, htype⟩ | ⟨_, rest, hskip, rfl, -⟩
  · obtain ⟨_, _, heq⟩ := typeDefinition_eq_ok htype
    rw [heq] at hkind
    cases hkind
  · obtain ⟨body, rfl, hbody, -⟩ := skipNested_eq_ok_iff.1 hskip
    exact ⟨rfl, t, body, rfl, ⟨ht, rfl⟩, rfl, hbody⟩

/-- **A type that cannot be described is declared in a round of its own**, at a place for types. -/
theorem round_of_unsupported {first : Parsed (List Declaration × Stage)} {d : Declaration}
    {reason : String} (h : round scope s tokens = .ok first) (hd : d ∈ first.value.1)
    (hkind : d.object.kind = .unsupported reason) :
    ∃ opening declared body, tokens = opening ++ declared :: (body ++ first.rest) ∧
      d.IsMade declared body ∧ first.references = [] ∧
        ((s = .file ∧ opening.map Token.kind = [.keyword .typeKw] ∧ first.value = ([d], .behind false)) ∨
          (s = .group ∧ opening = [] ∧ first.value = ([d], .behind true))) := by
  cases introduces_of_round h hd with
  | type ht hmade =>
    obtain ⟨hreferences, declared, body, rfl, hbody⟩ := isMade_of_unsupported hmade hkind
    exact ⟨[_], declared, body, rfl, hbody, hreferences, .inl ⟨rfl, by simp [ht], rfl⟩⟩
  | grouped hmade =>
    obtain ⟨hreferences, declared, body, heq, hbody⟩ := isMade_of_unsupported hmade hkind
    exact ⟨[], declared, body, heq, hbody, hreferences, .inr ⟨rfl, rfl, rfl⟩⟩
  | func hhead hd => cases (declared_of_funcHead hhead d hd).1.symm.trans hkind
  | values hvalue hvalues hd =>
    rw [(declared_of_values hvalues d hd).1] at hkind
    rcases hvalue with rfl | rfl <;> cases hkind

end

end Multicast.Syntax
