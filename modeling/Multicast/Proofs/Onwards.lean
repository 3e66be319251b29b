import Multicast.Proofs.Insertion

/-!
# Complete beginnings

The tokens of a file may end where a declaration has ended, and then others may follow: what was read
of the first ones is read of them again, and nothing else (`contents_of_isComplete`). Such a beginning is
`IsComplete`.

For most declarations this holds since the reader does not look further than to the token behind them.
A type that cannot be described is another matter, for an attempt to read it may go on beyond the end of
its declaration. But where the attempt has failed for good there was something left of the beginning, so
it does not matter what follows there (`typeKind_append`). No delimiters have to keep in step for this,
as they have to where something else is put in the place of what followed before.

## Rounds with more behind them

A beginning is complete if its declarations end where the tokens end. For a round that left tokens this is
a statement on what stands in front of the same next token; for the last round it is one on the end. The
stage tells which of the two it is: at a place for a declaration everything has been ended, and only
behind a spec or a skipped declaration is an end still wanted.
-/

namespace Multicast.Syntax

open Source Multicast.Syntax.Parser

/-! ### Single types -/

section

variable {scope : Scope} {t declared : Token}

/-- Behind the keyword a single type is declared by its name. -/
theorem round_single (ht : t.kind = .keyword .typeKw) (hdeclared : declared.kind = .identifier)
    (rest : List Token) : round scope .file (t :: declared :: rest) =
      (declaredType scope >>= fun d => pure ([d], .behind false)) (declared :: rest) := by
  rw [round_of_nextKind _ (nextKind_of_eq ht _), roundFrom, skip_cons]
  exact bind_of_ok (accept_of_ne (by simp [nextKind, hdeclared]))

/-- In a group a name is enough. -/
theorem round_grouped (hdeclared : declared.kind = .identifier) (rest : List Token) :
    round scope .group (declared :: rest) =
      (declaredType scope >>= fun d => pure ([d], .behind true)) (declared :: rest) := by
  rw [round_of_nextKind _ (nextKind_of_eq hdeclared _)]
  rfl

end

/-! ### Reading on behind declarations -/

section

variable {scope : Scope} {tokens : List Token} (more : List Token)

/-- **What a name declares does not change** if more tokens follow, and there were some behind it. -/
theorem typeKind_append {kind : Parsed ObjectKind} (h : typeKind scope tokens = .ok kind)
    (hends : EndsDeclaration (nextKind kind.rest)) (hne : kind.rest ≠ []) :
    typeKind scope (tokens ++ more) = .ok { kind with rest := kind.rest ++ more } := by
  have hechoes : Echoes false (fun n : Nat => n) 0 0 (typeDefinition scope) fun _ =>
      typeDefinition scope := echoes_typeDefinition false 0
  have hnext : nextKind (kind.rest ++ more) = nextKind kind.rest := by
    simpa using nextKind_append_of_ne_nil hne more []
  rcases typeKind_eq_ok_iff.1 h with ⟨hgeneric, hread⟩ | ⟨reason, rest, hskip, rfl, hreason⟩
  · obtain ⟨body, rfl, -, -, hagain⟩ := (hechoes _).reads rfl hread
    rw [List.append_assoc]
    refine typeKind_eq_ok_iff.2 (.inl ⟨?_, hagain _ (Nat.lt_succ_self _) _ hnext⟩)
    rwa [isGeneric_append_congr hends hnext]
  · obtain ⟨body, rfl, hbody, -⟩ := skipNested_eq_ok_iff.1 hskip
    refine typeKind_eq_ok_iff.2 (.inr ⟨reason, rest ++ more, ?_, rfl, ?_⟩)
    · exact skipNested_eq_ok_iff.2 ⟨body, List.append_assoc .., hbody, hnext ▸ hends⟩
    · have hgeneric : isGeneric (body ++ rest ++ more) = isGeneric (body ++ rest) := by
        rw [List.append_assoc]
        exact isGeneric_append_congr hends hnext
      rw [hgeneric]
      refine hreason.imp id fun ⟨hplain, e, herror, hcause, hmessage⟩ => ?_
      -- the attempt has been given up at a token, so it is given up there again
      obtain ⟨front, behind, hsplit, -, -, -, hagain⟩ := (hechoes _).fails rfl herror hcause
      refine ⟨hplain, e, ?_, hcause, hmessage⟩
      rw [hsplit, List.append_assoc]
      exact hagain _ (Nat.lt_succ_self _) _

theorem declaredType_append {d : Parsed Declaration} (h : declaredType scope tokens = .ok d)
    (hends : EndsDeclaration (nextKind d.rest)) (hne : d.rest ≠ []) :
    declaredType scope (tokens ++ more) = .ok { d with rest := d.rest ++ more } := by
  obtain ⟨t, behind, kind, rfl, ht, hkind, rfl⟩ := declaredType_eq_ok_iff.1 h
  have hmore := typeKind_append more hkind hends hne
  exact declaredType_eq_ok_iff.2 ⟨t, behind ++ more, _, rfl, ht, hmore, rfl⟩

/-- **A round does not change** if more tokens follow, and it came to a place for a declaration or left
some. -/
theorem round_append {s : Stage} {first : Parsed (List Declaration × Stage)}
    (h : round scope s tokens = .ok first)
    (hends : ∀ grouped, first.value.2 = .behind grouped → EndsDeclaration (nextKind first.rest))
    (hrest : first.value.2.isPlace = true ∨ first.rest ≠ []) :
    round scope s (tokens ++ more) = .ok { first with rest := first.rest ++ more } := by
  by_cases hkind : ∃ d ∈ first.value.1, ∃ reason, d.object.kind = .unsupported reason
  · obtain ⟨d, hd, reason, hreason⟩ := hkind
    have hdeclares {grouped : Bool} {ts : List Token}
        (hround : round scope s tokens =
          (declaredType scope >>= fun d => pure ([d], Stage.behind grouped)) ts)
        (hround' : round scope s (tokens ++ more) =
          (declaredType scope >>= fun d => pure ([d], Stage.behind grouped)) (ts ++ more)) :
        round scope s (tokens ++ more) = .ok { first with rest := first.rest ++ more } := by
      rw [hround] at h
      obtain ⟨made, hmade, rfl⟩ := bind_pure_eq_ok.1 h
      have hne := hrest.resolve_left (by simp [Stage.isPlace])
      rw [hround']
      exact bind_pure_eq_ok.2 ⟨_, declaredType_append more hmade (hends grouped rfl) hne, rfl⟩
    obtain ⟨opening, declared, body, rfl, hmade, -, hplace⟩ := round_of_unsupported h hd hreason
    rcases hplace with ⟨rfl, hopening, -⟩ | ⟨rfl, rfl, -⟩
    · obtain ⟨kw, rfl, hkw⟩ := List.map_eq_singleton_iff.1 hopening
      exact hdeclares (round_single hkw hmade.name.1 _) (round_single hkw hmade.name.1 _)
    · exact hdeclares (round_grouped hmade.name.1 _) (round_grouped hmade.name.1 _)
  · obtain ⟨front, rfl, -, hagain⟩ := repeats_round s tokens first h
    rw [List.append_assoc]
    refine hagain hends (fun d hd reason _ _ _ hreason => ?_) _ (hrest.imp id fun hne => ?_)
    · exact absurd ⟨d, hd, reason, hreason⟩ hkind
    · simpa using nextKind_append_of_ne_nil hne more []

/-- **Declarations are read again** if more tokens follow at a place for another one. -/
theorem Reaches.append {s s' : Stage} {rest : List Token} {ds : List Declaration}
    {references : List Reference} (h : Reaches scope s tokens ds references s' rest)
    (hplace : s'.isPlace = true) : Reaches scope s (tokens ++ more) ds references s' (rest ++ more) := by
  induction h with
  | here => exact .here
  | @round s tokens first ds references s' rest hfirst hmore ih =>
    have hends : ∀ grouped, first.value.2 = .behind grouped →
        EndsDeclaration (nextKind first.rest) := by
      intro grouped hstage
      rw [hstage] at hmore
      exact hmore.ends hplace
    have hrest : first.value.2.isPlace = true ∨ first.rest ≠ [] := by
      cases hmore with
      | here => exact .inl hplace
      | round hsecond _ =>
        refine .inr fun hnil => ?_
        rw [hnil] at hsecond
        cases hsecond
    have hround := round_append more hfirst hends hrest
    exact (Reaches.round hround (ih hplace) :)

end

/-! ### Complete beginnings -/

/-- **Tokens of a file that may end there, or go on with a declaration.** -/
structure IsComplete (path : String) (tokens : List Token) : Prop where
  finished : Finished tokens
  place : ∃ ds, IsPlace path tokens false ds []

/-- A header is read again if no import follows, or only a late one. -/
theorem header_onwards {tokens more : List Token} {top : Parsed (String × List Import)}
    (hfinished : Finished tokens) (h : header tokens = .ok top)
    (hmore : nextKind more = some (.keyword .importKw) → top.rest ≠ []) :
    header (tokens ++ more) = .ok { top with rest := top.rest ++ more } := by
  by_cases hnil : top.rest = []
  · -- a declaration takes the place of whatever follows
    have himport : nextKind more ≠ some (.keyword .importKw) := fun h => hmore h hnil
    obtain ⟨value, references, rest⟩ := top
    obtain rfl : rest = [] := hnil
    have hkw : header (tokens ++ [⟨.keyword .typeKw, "type", .start⟩]) = _ := header_append rfl hfinished h
    obtain ⟨-, above, habove, hagain⟩ := header_again hkw
    rw [List.append_cancel_right habove]
    exact hagain more himport (by simp)
  · obtain ⟨hnext, above, rfl, hagain⟩ := header_again h
    rw [List.append_assoc]
    refine hagain _ ?_ fun h => absurd h hnil
    have hsame := nextKind_append_of_ne_nil hnil more []
    rw [List.append_nil] at hsame
    rwa [hsame]

/-- **An import would be late** behind these tokens of a file, since there is more than its header. -/
def LateImport (tokens : List Token) : Prop :=
  ∀ top, header tokens = .ok top → top.rest ≠ []

/-- **A complete beginning is read once and for all**: behind it the declarations of the file go on. -/
theorem contents_of_isComplete {path : String} {tokens : List Token} (h : IsComplete path tokens) :
    ∃ (package : String) (imports : List Import) (ds : List Declaration) (references : List Reference),
      ∀ more, (nextKind more = some (.keyword .importKw) → LateImport tokens) →
        (∃ clause, packageClause (tokens ++ more) = .ok clause ∧ clause.value = package) ∧
        contents path (tokens ++ more) = (reading ⟨⟨path, package⟩, imports⟩ .file more).map
          fun parsed => ⟨⟨package, imports, ds ++ parsed.value⟩, references ++ parsed.references,
            parsed.rest⟩ := by
  obtain ⟨hfinished, ds, top, references, htop, hreaches⟩ := h
  change Reaches _ .file top.rest ds references .file [] at hreaches
  refine ⟨top.value.1, top.value.2, ds, top.references ++ references, fun more hmore => ?_⟩
  have hheader := header_onwards hfinished htop fun himport => hmore himport top htop
  refine ⟨?_, ?_⟩
  · obtain ⟨clause, _, hclause, himports, heq⟩ := bind_eq_ok.1 hheader
    obtain ⟨_, -, rfl⟩ := bind_pure_eq_ok.1 himports
    refine ⟨clause, hclause, ?_⟩
    have hvalue := congrArg (fun parsed => parsed.value.1) heq
    exact hvalue.symm
  · rw [contents_eq]
    change (header >>= _).run _ = _
    rw [run_bind, run, hheader]
    dsimp only
    rw [run_bind, run, (hreaches.append more rfl).reading_eq, List.nil_append]
    cases reading ⟨⟨path, top.value.1⟩, top.value.2⟩ .file more with
    | error e => rfl
    | ok parsed =>
      simp [Except.map, Parsed.behind, run, Pure.pure, done, List.append_assoc]

end Multicast.Syntax
