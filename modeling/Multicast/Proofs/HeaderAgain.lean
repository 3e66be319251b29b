import Multicast.Proofs.Places

/-!
# Headers are read again

A package clause and imports end in semicolons, or else the file ends with them. So they are read alike
whatever declarations stand below them (`header_again`), and a file is its header with declarations
behind it, whichever they are (`contents_eq`).

## Ends of imports

An import is its alias and path, and what ends it. The end is read, unless it is that of the file. So what
has been read of a header is over, and in front of other declarations it is read again, as long as these
do not begin with an import. If the file ended with the header, then its last line end is missing, and the
declarations have to begin with it.
-/

namespace Multicast.Syntax

open Source Multicast.Syntax.Parser

/-! ### What stands in a header -/

/-- Reads the clause of a package, but not what ends it. -/
def clauseHead : Parser String := do
  skipSemicolons
  let _ ← expect (.keyword .packageKw) .packageKeyword
  let package ← name
  if package.text = "_" then failAt package.pos .blankPackage
  return package.text

/-- Reads an import, but not what ends it. -/
def importHead : Parser Import := do
  let written ← importAlias
  let literal ← expect .string .importPath
  if importedPath literal.text = "" then failAt literal.pos .emptyImportPath
  return ⟨written, .ofPath (importedPath literal.text)⟩

/-- Reads an import or a group of them, but not what ends them. -/
def importsHead : Parser (List Import) := do
  if ← accept .leftParen then bounded (groupRest (importSpec true))
  else return [← importHead]

theorem packageClause_eq :
    packageClause = clauseHead >>= fun package => specEnd false >>= fun _ => pure package := by
  simp only [packageClause, clauseHead, bind_assoc]
  refine bind_congr fun _ => bind_congr fun _ => bind_congr fun package => ?_
  split <;> simp only [bind_assoc, pure_bind]

theorem importSpec_eq (grouped : Bool) :
    importSpec grouped = importHead >>= fun i => specEnd grouped >>= fun _ => pure i := by
  simp only [importSpec, importHead, bind_assoc]
  refine bind_congr fun written => bind_congr fun literal => ?_
  split <;> simp only [bind_assoc, pure_bind]

theorem groupImports_eq :
    group importSpec = importsHead >>= fun is => specEnd false >>= fun _ => pure is := by
  rw [group, importsHead, bind_assoc]
  refine bind_congr fun opened => ?_
  cases opened <;> simp [importSpec_eq]

section

variable {ι : Type} {budget : ι → Nat}

theorem echoes_importAlias (a : Nat) :
    Echoes false budget a a importAlias fun _ => importAlias := by
  intro next
  have hread {k : Kind} (hk : k = .identifier ∨ k = .dot) :
      EchoesAt (some k) false budget a a importAlias fun _ => importAlias := by
    have hplain : k.isPlain = true ∧ k ≠ .semicolon := by
      rcases hk with rfl | rfl <;> exact ⟨rfl, by simp⟩
    have hexpect : EchoesAt (some k) false budget a a
        (expect k .name >>= fun t => pure (some t.text)) fun _ =>
          expect k .name >>= fun t => pure (some t.text) :=
      (EchoesAt.expect _ (.plain hplain.1 hplain.2)).bind fun t _ => .pure _
    have halias (tokens : List Token) (htokens : nextKind tokens = some k) :
        importAlias tokens = (expect k .name >>= fun t => pure (some t.text)) tokens := by
      obtain ⟨t, rest, rfl, ht⟩ := exists_cons_of_nextKind htokens
      rw [importAlias, if_pos (ht ▸ hk),
        bind_of_ok (show expect k .name (t :: rest) = .ok ⟨t, [], rest⟩ from if_pos ht)]
      rfl
    exact hexpect.congr halias fun _ => halias
  by_cases hnext : next = some .identifier ∨ next = some .dot
  · rcases hnext with rfl | rfl
    · exact hread (.inl rfl)
    · exact hread (.inr rfl)
  · have halias (tokens : List Token) (htokens : nextKind tokens = next) :
        importAlias tokens = (pure none : Parser (Option String)) tokens := by
      cases tokens with
      | nil => rfl
      | cons t rest =>
        have ht : ¬(t.kind = .identifier ∨ t.kind = .dot) := by
          subst htokens
          simpa [nextKind] using hnext
        rw [importAlias, if_neg ht]
        rfl
    exact (EchoesAt.pure none).congr halias fun _ => halias

theorem echoes_importHead (a : Nat) :
    Echoes true budget a a importHead fun _ => importHead := by
  refine fun next => (echoes_importAlias a next).after fun written next =>
    (EchoesAt.expect _ (.plain rfl (by simp))).bind fun literal next => ?_
  refine .ite (fun _ => .stop fun _ _ => ⟨_, rfl, rfl⟩) fun _ => .pure _

theorem echoes_clauseHead (a : Nat) :
    Echoes false budget (a + 1) (a + 1) clauseHead fun _ => clauseHead := by
  refine fun next => EchoesAt.skipSemicolons.bind fun _ next =>
    (EchoesAt.expect _ (.plain rfl (by simp))).bind fun _ next =>
      (EchoesAt.expect _ (.plain rfl (by simp))).bind fun package next => ?_
  refine .ite (fun _ => .stop fun _ _ => ⟨_, rfl, rfl⟩) fun _ => .pure _

theorem echoes_importSpec (grouped : Bool) (a : Nat) :
    Echoes true budget (a + 1) (a + 1) (importSpec grouped) fun _ => importSpec grouped := by
  rw [importSpec_eq]
  exact fun next => (echoes_importHead _ next).bind fun _ next =>
    (echoes_specEnd grouped a next).bind fun _ _ => .pure _

theorem echoes_importsHead (a : Nat) :
    Echoes false budget a a importsHead fun _ => importsHead := by
  refine .accept (.opening rfl) (fun next => ?_) fun next => ?_
  · exact (Echoes.bounded fun n => echoes_groupRest (echoes_importSpec true) n a) next
  · exact ((echoes_importHead a next).bind fun _ _ => .pure _).weaken nofun

end

/-! ### Parsers that are ended -/

namespace Parser

variable {α : Type}

/-- **What a parser has read is over**, unless the file ends with it: it is read again in front of
anything else. -/
def IsOver (p : Parser α) : Prop :=
  ∀ tokens parsed, p tokens = .ok parsed → ∃ front, tokens = front ++ parsed.rest ∧
    ∀ rest, (parsed.rest = [] → rest = []) → p (front ++ rest) = .ok { parsed with rest := rest }

theorem isOver_of_again {p : Parser α} (h : p.Again) :
    (p >>= fun x => specEnd false >>= fun _ => pure x).IsOver := by
  intro tokens parsed hok
  obtain ⟨first, second, hfirst, hend, rfl⟩ := bind_eq_ok.1 hok
  obtain ⟨front, rfl, hagain⟩ := h _ _ hfirst
  obtain ⟨value, references, rest⟩ := first
  cases rest with
  | nil =>
    cases hend
    refine ⟨front, rfl, fun rest hrest => ?_⟩
    obtain rfl := hrest rfl
    simpa using hok
  | cons t rest =>
    have hspec (rest : List Token) : (specEnd false >>= fun _ => pure value) (t :: rest) =
        if t.kind = .semicolon then .ok ⟨value, [], rest⟩
        else .error ⟨some t.pos, .expected .semicolon t.shown⟩ := by
      rw [specEnd, bind_assoc, peek_cons]
      cases hkind : t.kind <;> rfl
    dsimp only at hend
    rw [hspec] at hend
    split at hend
    next ht =>
      cases hend
      refine ⟨front ++ [t], by simp, fun rest' _ => ?_⟩
      refine bind_eq_ok.2 ⟨⟨value, references, t :: rest'⟩, ⟨value, [], rest'⟩, ?_, ?_, rfl⟩
      · simpa using hagain (t :: rest') rfl
      · exact (hspec rest').trans (if_pos ht)
    next => cases hend

end Parser

theorem isOver_packageClause : packageClause.IsOver := by
  rw [packageClause_eq]
  exact isOver_of_again (.of_echoes (echoes_clauseHead 0))

theorem isOver_groupImports : (group importSpec).IsOver := by
  rw [groupImports_eq]
  exact isOver_of_again (.of_echoes (echoes_importsHead 0))

/-- Imports are read again, in front of anything but another import. -/
theorem imports_again {n : Nat} {tokens : List Token} {parsed : Parsed (List Import)}
    (hn : tokens.length < n) (h : imports n tokens = .ok parsed) :
    nextKind parsed.rest ≠ some (.keyword .importKw) ∧ ∃ front, tokens = front ++ parsed.rest ∧
      ∀ m rest, front.length < m → nextKind rest ≠ some (.keyword .importKw) →
        (parsed.rest = [] → rest = []) → imports m (front ++ rest) = .ok { parsed with rest := rest } := by
  have hnone {m : Nat} {ts : List Token} (hts : nextKind ts ≠ some (.keyword .importKw)) :
      imports (m + 1) ts = .ok ⟨[], [], ts⟩ := by
    rw [imports, bind_of_ok (accept_of_ne hts)]
    rfl
  induction n generalizing tokens parsed with
  | zero => cases hn
  | succ n ih =>
    by_cases himport : nextKind tokens = some (.keyword .importKw)
    · obtain ⟨t, tokens, rfl, ht⟩ := exists_cons_of_nextKind himport
      rw [imports, bind_of_ok (accept_of_eq ht tokens)] at h
      obtain ⟨first, _, hfirst, hmore, rfl⟩ := bind_eq_ok.1 h
      obtain ⟨others, hothers, rfl⟩ := bind_pure_eq_ok.1 hmore
      obtain ⟨us, rfl, hover⟩ := isOver_groupImports _ _ hfirst
      rw [List.length_cons, List.length_append] at hn
      obtain ⟨hnext, vs, hsplit, hagain⟩ := ih (by omega) hothers
      refine ⟨hnext, t :: us ++ vs, by simp [← hsplit], fun m rest hm hrest hnil => ?_⟩
      obtain ⟨m, rfl⟩ := Nat.exists_eq_succ_of_ne_zero (Nat.ne_zero_of_lt hm)
      rw [List.length_append, List.length_cons] at hm
      rw [List.cons_append, List.cons_append, imports, bind_of_ok (accept_of_eq ht _),
        List.append_assoc]
      refine bind_eq_ok.2 ⟨_, _, hover _ ?_,
        bind_pure_eq_ok.2 ⟨_, hagain m rest (by omega) hrest hnil, rfl⟩, rfl⟩
      intro hend
      obtain ⟨rfl, hothers⟩ := List.append_eq_nil_iff.1 (hsplit.symm.trans hend)
      simp [hnil hothers]
    · rw [hnone himport] at h
      cases h
      refine ⟨himport, [], rfl, fun m rest hm hrest _ => ?_⟩
      obtain ⟨m, rfl⟩ := Nat.exists_eq_succ_of_ne_zero (Nat.ne_zero_of_lt hm)
      exact hnone hrest

/-- **A header is read again** in front of other declarations. -/
theorem header_again {tokens : List Token} {parsed : Parsed (String × List Import)}
    (h : header tokens = .ok parsed) : nextKind parsed.rest ≠ some (.keyword .importKw) ∧
      ∃ top, tokens = top ++ parsed.rest ∧ ∀ rest, nextKind rest ≠ some (.keyword .importKw) →
        (parsed.rest = [] → rest = []) → header (top ++ rest) = .ok { parsed with rest := rest } := by
  obtain ⟨package, _, hpackage, himports, rfl⟩ := bind_eq_ok.1 h
  obtain ⟨is, his, rfl⟩ := bind_pure_eq_ok.1 himports
  obtain ⟨us, rfl, hover⟩ := isOver_packageClause _ _ hpackage
  obtain ⟨hnext, vs, hsplit, hagain⟩ := imports_again (Nat.lt_succ_self _) his
  refine ⟨hnext, us ++ vs, by rw [List.append_assoc, ← hsplit], fun rest hrest hnil => ?_⟩
  rw [List.append_assoc]
  refine bind_eq_ok.2 ⟨_, _, hover _ ?_,
    bind_pure_eq_ok.2 ⟨_, hagain _ rest ?_ hrest hnil, rfl⟩, rfl⟩
  · intro hend
    obtain ⟨rfl, hothers⟩ := List.append_eq_nil_iff.1 (hsplit.symm.trans hend)
    simp [hnil hothers]
  · rw [List.length_append]
    omega

/-- **A file is its header with declarations behind it.** -/
theorem contents_eq (path : String) : contents path = header >>= fun top =>
    reading ⟨⟨path, top.1⟩, top.2⟩ .file >>= fun ds => pure ⟨top.1, top.2, ds⟩ := by
  simp only [contents, header, bind_assoc, pure_bind, bounded_declarations]

end Multicast.Syntax
