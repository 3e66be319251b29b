import Multicast.Proofs.Insertion
import Multicast.Proofs.Returns

/-!
# What can be exchanged in a file

A part of a file can be exchanged for another one if both are read alike from where declarations begin:
then the whole file is read alike (`contents_exchange`), wherever the tokens stand
(`parseFile_exchange`). As for every place in a file, the types in front of it that cannot be described have
to keep their delimiters in step.

## One place, and any part of a kind

Reading alike is asked at the place where the reader stands when it comes to the part: at this stage, with
these tokens, and with anything behind them. What is in front has been read for good, with whatever
follows (`Reaches.again`). So two files that differ in this part say the same (`parseFile_exchange`).
Often the parts that may stand at a place are all those of some kind; then the file says the same with any
of them, in any text with these words (`parseFile_exchange_all`).
-/

namespace Multicast.Syntax

open Source Multicast.Syntax.Parser

/-! ### Groups

The loop over a group, with the budget told from its tokens, goes by the token that it stands at: it passes
a semicolon, ends at a parenthesis, and reads a spec at anything else. -/

section

variable {α : Type} {spec : Parser α} {t : Token} {rest : List Token}

theorem groupSpecs_semicolon (spec : Parser α) (ht : t.kind = .semicolon) (hspec : ∀ us, SameAt 1 us spec spec) :
    bounded (groupRest spec) (t :: rest) = bounded (groupRest spec) rest := by
  conv_lhs => rw [(loop_group hspec).eq_round]
  conv_rhs => rw [(loop_group hspec).eq_round]
  exact bind_congr_first (skipSemicolons_cons ht rest)

theorem groupSpecs_rightParen (spec : Parser α) (ht : t.kind = .rightParen) :
    bounded (groupRest spec) (t :: rest) = .ok ⟨[], [], rest⟩ :=
  groupRest_rightParen spec ht

/-- A group begins with its first spec, and the budget of the loop is no matter. -/
theorem groupSpecs_spec (hspec : ∀ us, SameAt 1 us spec spec) (hends : t.kind ≠ .semicolon)
    (hcloses : t.kind ≠ .rightParen) : bounded (groupRest spec) (t :: rest) =
      (spec >>= fun first => bounded (groupRest spec) >>= fun others => pure (first :: others))
        (t :: rest) := by
  conv_lhs => rw [(loop_group hspec).eq_round]
  have hnone : skipSemicolons (t :: rest) = .ok ⟨(), [], t :: rest⟩ :=
    skipSemicolons_of_ne (by simpa [nextKind] using hends)
  have hother : nextKind (t :: rest) ≠ some .rightParen := by simpa [nextKind] using hcloses
  rw [groupRound, bind_of_ok hnone, bind_of_ok (accept_of_ne hother), if_neg Bool.false_ne_true, peek_cons]
  rfl

/-- Variables and constants begin with a name. -/
theorem identifier_of_valueHead {kind : ObjectKind}
    {parsed : Parsed (List Declaration)} (h : valueHead kind (t :: rest) = .ok parsed) :
    t.kind = .identifier := by
  obtain ⟨_, _, hnames, -, rfl⟩ := bind_eq_ok.1 h
  rw [loop_names.eq_round] at hnames
  obtain ⟨_, _, hname, -, rfl⟩ := bind_eq_ok.1 hnames
  rw [name, expect] at hname
  split at hname
  next ht => exact ht
  next => cases hname

end

/-! ### Exchanges -/

/-- Files that say the same, wherever in a text they say it. -/
structure File.SaysSame (f f' : File) : Prop where
  package : f'.package = f.package
  imports : f'.imports = f.imports
  objects : f'.declarations.map Declaration.object = f.declarations.map Declaration.object
  references : f'.references.map Reference.name = f.references.map Reference.name

/-- **A part of a file can be exchanged** for another one that is read alike. -/
theorem contents_exchange {path : String} {tokens part part' : List Token} {ds : List Declaration}
    (hplace : IsPlace path tokens false ds part) (hmatched : ∀ d ∈ ds, d.Matched tokens)
    (hpart : part ≠ []) (hnext : nextKind part' ≠ some (.keyword .importKw))
    (hread : ∀ top, header tokens = .ok top → reading ⟨⟨path, top.value.1⟩, top.value.2⟩ .file part' =
      reading ⟨⟨path, top.value.1⟩, top.value.2⟩ .file part) :
    ∃ before, tokens = before ++ part ∧ contents path (before ++ part') = contents path tokens := by
  obtain ⟨top, references, htop, hreaches⟩ := hplace
  obtain ⟨himport, above, htokens, hheader⟩ := header_again htop
  obtain ⟨before, hsplit, -, hagain⟩ := hreaches.again (isPlace_ofGrouped false) fun d hd =>
    (hmatched d hd).of_suffix ⟨_, htokens.symm⟩
  have hbelow : header (above ++ (before ++ part')) = .ok { top with rest := before ++ part' } := by
    refine hheader _ ?_ fun hnil => ?_
    · cases before with
      | nil => exact hnext
      | cons t before =>
        rw [hsplit] at himport
        exact himport
    · rw [hsplit] at hnil
      exact absurd (List.append_eq_nil_iff.1 hnil).2 hpart
  refine ⟨above ++ before, by rw [htokens, hsplit, List.append_assoc], ?_⟩
  have hsame : reading ⟨⟨path, top.value.1⟩, top.value.2⟩ .file (before ++ part') =
      reading ⟨⟨path, top.value.1⟩, top.value.2⟩ .file top.rest := by
    rw [(hagain part').reading_eq, hreaches.reading_eq]
    exact congrArg _ (hread top htop)
  rw [contents_eq, List.append_assoc]
  change (header >>= _).run _ = (header >>= _).run _
  rw [run_bind, run_bind, run, run, hbelow, htop]
  dsimp only
  rw [show run _ (before ++ part') = run _ top.rest from bind_congr_first hsame]

/-- What is read alike says the same in a text, wherever the tokens stand. -/
theorem parseFile_exchange {file text path : String} {ts : Tokens} {f : File} {tokens : List Token}
    (hts : tokenize text = .ok ts) (h : parseFile file text path = .ok f)
    (hcontents : contents path tokens = contents path ts.list) {file' text' : String} {ts' : Tokens}
    (hts' : tokenize text' = .ok ts') (hsame : SameWords ts'.list tokens) :
    ∃ f', parseFile file' text' path = .ok f' ∧ f.SaysSame f' := by
  obtain ⟨_, c, references, rest, hts'', hread, rfl⟩ := parseFile_eq_ok.1 h
  obtain rfl : _ = ts := Except.ok.inj (hts''.symm.trans hts)
  have halike := alike_contents path ts'.list _ hsame
  rw [hcontents, hread] at halike
  generalize hresult : contents path ts'.list = result at halike
  obtain ⟨hvalue, hreferences, -⟩ | _ := halike
  exact ⟨_, parseFile_eq_ok.2 ⟨ts', _, _, _, hts', hresult, rfl⟩, hvalue.package, hvalue.imports,
    objects_eq hvalue.declarations, hreferences⟩

/-- **What can be exchanged at the level of tokens can be exchanged in a text.** -/
theorem parseFile_exchange_all {file text path : String} {ts : Tokens} {f : File} {part : List Token}
    {isPart : List Token → Prop} (hts : tokenize text = .ok ts) (h : parseFile file text path = .ok f)
    (hpart : isPart part) (hexchange : ∀ part', isPart part' → ∃ before, ts.list = before ++ part ∧
      contents path (before ++ part') = contents path ts.list) :
    ∃ before, ts.list = before ++ part ∧ ∀ part', isPart part' →
      contents path (before ++ part') = contents path ts.list ∧
      ∀ file' text' ts', tokenize text' = .ok ts' → SameWords ts'.list (before ++ part') →
        ∃ f', parseFile file' text' path = .ok f' ∧ f.SaysSame f' := by
  obtain ⟨before, hsplit, -⟩ := hexchange part hpart
  refine ⟨before, hsplit, fun part' hpart' => ?_⟩
  obtain ⟨before', hsplit', hcontents⟩ := hexchange part' hpart'
  obtain rfl : before' = before := List.append_cancel_right (hsplit'.symm.trans hsplit)
  exact ⟨hcontents, fun file' text' ts' hts' hsame => parseFile_exchange hts h hcontents hts' hsame⟩

/-- What is refused is refused in a text, wherever the tokens stand. -/
theorem parseFile_error_of_contents {file text path : String} {ts : Tokens} {tokens : List Token}
    (hts : tokenize text = .ok ts) (hsame : SameWords ts.list tokens) (h : ∃ e, contents path tokens = .error e) :
    ∃ e, parseFile file text path = .error e := by
  obtain ⟨e, he⟩ := h
  cases hparse : parseFile file text path with
  | error e => exact ⟨e, rfl⟩
  | ok f =>
    obtain ⟨_, c, references, rest, hts', hread, -⟩ := parseFile_eq_ok.1 hparse
    obtain rfl := Except.ok.inj (hts.symm.trans hts')
    have halike := alike_contents path ts.list _ hsame
    rw [he, hread] at halike
    cases halike

end Multicast.Syntax
