import Multicast.Proofs.Descents
import Multicast.Proofs.Hooked
import Multicast.Proofs.Places

/-!
# The readers of files return

To read a file takes as many steps as there are things to read. Its text has two tokens for a
character, at most (`Lexing.exists_finds`). The readers of types descend, and the loops go on, only
behind tokens that have been read; so neither runs out of its budget, and what is left is always a
part of the tokens that were given. The loops that look for the end of something go along the tokens
and count the delimiters that are open, and no delimiter is closed that is not open (`Counts`).

`Syntax.readers_return` collects all this.
-/

namespace Multicast

namespace Source

/-! ### Tokens -/

/-- A text has no more pieces than characters. -/
theorem length_split_le (text : List Char) : (split text).1.length ≤ text.length := by
  fun_induction split text with
  | case1 => exact le_refl _
  | case2 => exact Nat.zero_le _
  | case3 c cs piece rest h pieces left hsplit ih =>
    rw [hsplit] at ih
    exact Nat.succ_le_of_lt (ih.trans_lt (Piece.length_next_lt h))

namespace Lexing

variable {left : List Char} {p : Position} {ends : Bool} {ps : List Piece}

/-- Of every piece comes one token or flaw at most, and one more of the end of the text. -/
theorem length_items_le : (ofPieces left p ends ps).items.length ≤ ps.length + 1 := by
  induction ps generalizing p ends with
  | nil =>
    rw [ofPieces]
    cases left <;> cases ends <;> simp [atEnd]
  | cons q ps ih =>
    have hsame (p : Position) (ends : Bool) :
        (ofPieces left p ends ps).items.length ≤ ps.length + 2 :=
      ih.trans (Nat.le_succ _)
    have hpush (p : Position) (ends : Bool) (item : Except Flaw Token) :
        ((ofPieces left p ends ps).push item).items.length ≤ ps.length + 2 :=
      Nat.succ_le_succ ih
    cases q with
    | newline | blockComment t =>
      rw [ofPieces]
      split
      · exact hpush _ _ _
      · exact hsame _ _
    | blank c | lineComment t => exact hsame _ _
    | lexeme kind t | broken cause t => exact hpush _ _ _

/-- **Every token stands in the text**, line ends apart: it is one of the lexemes, at its place. -/
theorem mem_items {t : Token} (h : .ok t ∈ (ofPieces left p ends ps).items) :
    t.word = .lineEnd ∨
      ∃ qs rs, ps = qs ++ .lexeme t.kind t.text.toList :: rs ∧ t.pos = p.past (textOf qs) := by
  induction ps generalizing p ends with
  | nil =>
    rw [ofPieces] at h
    cases left <;> cases ends <;> simp_all [atEnd]
  | cons q ps ih =>
    have hsame {ends : Bool} (h : .ok t ∈ (ofPieces left (p.past q.text) ends ps).items) :
        t.word = .lineEnd ∨
          ∃ qs rs, q :: ps = qs ++ .lexeme t.kind t.text.toList :: rs ∧
            t.pos = p.past (textOf qs) := by
      refine (ih h).imp_right ?_
      rintro ⟨qs, rs, rfl, hpos⟩
      refine ⟨q :: qs, rs, rfl, ?_⟩
      rw [hpos, textOf, textOf, List.flatMap_cons, Position.past_append]
    cases q with
    | newline | blockComment u =>
      rw [ofPieces] at h
      split at h
      · rcases List.mem_cons.1 h with heq | h
        · cases heq
          exact .inl rfl
        · exact hsame h
      · exact hsame h
    | blank c | lineComment u => exact hsame h
    | lexeme kind u =>
      rcases List.mem_cons.1 h with heq | h
      · cases heq
        exact .inr ⟨[], ps, by simp, rfl⟩
      · exact hsame h
    | broken cause u =>
      rcases List.mem_cons.1 h with heq | h
      · cases heq
      · exact hsame h

/-- Whoever asks for one item more than an item pushed to the front is given this one first. -/
theorem take_push_ok (t : Token) (l : Lexing) (n : Nat) :
    (l.push (.ok t)).take (n + 1) = .token t :: l.take n := by
  simp [take, push]

/-- **Whoever asks for tokens** is given all of them, and from then on the end of the text; or those
in front of the first flaw, and this flaw. -/
theorem exists_replies (l : Lexing) : ∃ (found : List Token) (rest : List (Except Flaw Token)),
    l.items = found.map .ok ++ rest ∧
      ((∃ stop, l.tokens = .ok ⟨found, stop⟩ ∧
          ∀ n, l.take (found.length + n) = found.map .token ++ List.replicate n (.stop stop)) ∨
        ∃ flaw, l.tokens = .error flaw ∧
          l.take (found.length + 1) = found.map .token ++ [.flaw flaw]) := by
  rcases l with ⟨items, last⟩
  induction items with
  | nil =>
    rcases last with flaw | stop
    · exact ⟨[], [], rfl, .inr ⟨flaw, rfl, rfl⟩⟩
    · exact ⟨[], [], rfl, .inl ⟨stop, rfl, fun n => by simp [take]⟩⟩
  | cons item items ih =>
    rcases item with flaw | t
    · exact ⟨[], _, rfl, .inr ⟨flaw, rfl, by simp [take]⟩⟩
    obtain ⟨found, rest, hitems, hread⟩ := ih
    have hafter : (push (.ok t) ⟨items, last⟩).tokens = _ := tokens_after [t] ⟨items, last⟩
    have htake (n : Nat) := take_push_ok t ⟨items, last⟩ n
    refine ⟨t :: found, rest, congrArg (.ok t :: ·) hitems, hread.imp ?_ ?_⟩
    · rintro ⟨stop, htokens, hreplies⟩
      refine ⟨stop, hafter.trans (by rw [htokens]; rfl), fun n => ?_⟩
      rw [List.length_cons, Nat.add_right_comm]
      exact (htake _).trans (by rw [hreplies]; rfl)
    · rintro ⟨flaw, htokens, hreplies⟩
      refine ⟨flaw, hafter.trans (by rw [htokens]; rfl), ?_⟩
      rw [List.length_cons]
      exact (htake _).trans (by rw [hreplies]; rfl)

/-- A text has two items for a character at most. -/
theorem length_items_ofText (text : String) : (ofText text).items.length ≤ 2 * text.length := by
  rcases hsplit : split text.toList with ⟨ps, left⟩
  have hread : ofText text = ofPieces left .start false ps := by
    rw [ofText, hsplit]
  have hpieces : ps.length ≤ text.length := by
    rw [← String.length_toList]
    simpa [hsplit] using length_split_le text.toList
  have hitems : (ofText text).items.length ≤ ps.length + 1 := hread ▸ length_items_le
  -- the item that comes of the end of the text is one too many only if the text is empty
  rcases Nat.eq_zero_or_pos text.length with hzero | hpos
  · have hnil : text.toList = [] := by simpa using hzero
    have hnone : (ofText text).items = [] := by
      rw [ofText, hnil, split]
      rfl
    rw [hnone]
    exact Nat.zero_le _
  · omega

/-- Every token of a text stands in it at its place, line ends apart. -/
theorem placed_of_mem_items {text : String} {t : Token} (h : .ok t ∈ (ofText text).items) :
    t.word = .lineEnd ∨ ∃ before behind,
      text.toList = before ++ (t.text.toList ++ behind) ∧ t.pos = Position.start.past before := by
  rcases hsplit : split text.toList with ⟨ps, left⟩
  have htext : textOf ps ++ left = text.toList := by
    simpa [hsplit] using split_text text.toList
  rw [ofText, hsplit] at h
  refine (mem_items h).imp_right ?_
  rintro ⟨qs, rs, rfl, hpos⟩
  exact ⟨textOf qs, textOf rs ++ left, by rw [← htext]; simp [textOf], hpos⟩

end Lexing

/-- **A text is read up to its end, or up to its first flaw**: some tokens are found, each of them
at its place in the text, and no more than two for a character. Either they are all tokens of the
text, and then whoever asks for one more is told that the text has ended, again and again; or there
is a flaw behind them. -/
structure Lexing.Finds (text : String) (found : List Token) : Prop where
  few : found.length ≤ 2 * text.length
  placed : ∀ t ∈ found, t.word = .lineEnd ∨ ∃ before behind,
    text.toList = before ++ (t.text.toList ++ behind) ∧ t.pos = Position.start.past before
  ends : (∃ stop, tokenize text = .ok ⟨found, stop⟩ ∧ ∀ n, (ofText text).take (found.length + n) =
      found.map .token ++ List.replicate n (.stop stop)) ∨
    ∃ flaw, tokenize text = .error flaw ∧
      (ofText text).take (found.length + 1) = found.map .token ++ [.flaw flaw]

/-- The tokens of every text are found, since each piece that is cut off makes the rest shorter. -/
theorem Lexing.exists_finds (text : String) : ∃ found, Finds text found := by
  obtain ⟨found, rest, hitems, hends⟩ := exists_replies (ofText text)
  refine ⟨found, ?_, fun t ht => placed_of_mem_items ?_, hends⟩
  · have hlength := length_items_ofText text
    rw [hitems, List.length_append, List.length_map] at hlength
    omega
  · rw [hitems]
    exact List.mem_append_left rest (List.mem_map_of_mem ht)

end Source

namespace Syntax

open Source Multicast.Syntax.Parser

/-! ### Ends of declarations -/

section

variable {us : List Token}

/-- Skipping goes along the tokens. -/
theorem same_skipToEnd : SameAt 0 us skipToEnd skipToEnd := by
  refine .of_suffix fun parsed hok => ?_
  obtain ⟨rest, hrest, heq⟩ := except_bind_eq_ok.1 hok
  cases heq
  exact suffix_of_skipNested hrest

theorem same_skipDeclaration : SameAt 0 us skipDeclaration skipDeclaration :=
  same_skipToEnd.before fun _ _ _ => .accept _ (.pure _) fun _ _ _ => .pure _

/-- The end of a spec is one token or none. -/
theorem same_specEnd (grouped : Bool) : SameAt 0 us (specEnd grouped) (specEnd grouped) := by
  refine (SameAt.peek 0).before fun next vs _ => ?_
  split
  · exact .skip
  · exact .ite (.pure _) (.wanted _)
  · exact .pure _
  · exact .wanted _

/-! ### Groups -/

/-- One round of the loop that reads the specs of a group. -/
def groupRound {α : Type} (spec : Parser α) (more : Parser (List α)) : Parser (List α) := do
  skipSemicolons
  if ← accept .rightParen then return []
  if (← peek 0).isNone then wanted .rightParen
  let first ← spec
  let others ← more
  return first :: others

section

variable {α : Type}

/-- One spec of a group, and the specs behind it. -/
theorem same_groupRound {spec : Parser α} (hspec : ∀ us, SameAt 1 us spec spec)
    {more more' : Parser (List α)} (hmore : SameBehind 0 us more more') :
    SameAt 0 us (groupRound spec more) (groupRound spec more') := by
  refine SameAt.skipSemicolons.before fun _ vs hvs => .accept _ ?_ fun _ _ _ => .pure _
  refine (SameAt.peek 0).before fun next ws hws => .ite (.fails rfl) ?_
  refine ((hspec ws).first fun a xs hxs hlt => ?_).mono (Nat.zero_le 1)
  have hlt := hlt.trans_le (hws.trans hvs).length_le
  exact (hmore xs (hxs.trans (hws.trans hvs)) hlt).before fun _ _ _ => .pure _

/-- The specs of a group are read in a loop, if each of them takes a token. -/
theorem loop_group {spec : Parser α} (hspec : ∀ us, SameAt 1 us spec spec) :
    Loop (bounded (groupRest spec)) (groupRound spec) :=
  .bounded (fun _ => .wanted _) (fun _ => rfl) fun _ _ _ => same_groupRound hspec

/-- Specs go along the tokens, in a group or alone. -/
theorem same_group {spec : Bool → Parser α}
    (hspec : ∀ grouped us, SameAt 1 us (spec grouped) (spec grouped)) :
    SameAt 0 us (group spec) (group spec) := by
  refine .accept _ ?_ fun vs _ _ => ?_
  · exact (hspec false us).before fun _ _ _ => .pure _
  · refine ((loop_group (hspec true)).same vs).before fun _ _ _ => ?_
    exact (same_specEnd false).before fun _ _ _ => .pure _

end

/-! ### Package clause and imports -/

/-- The package clause takes its keyword. -/
theorem same_packageClause : SameAt 1 us packageClause packageClause := by
  refine SameAt.skipSemicolons.before fun _ _ _ => (SameAt.expect _ _).first fun _ _ _ _ => ?_
  refine (SameAt.expect _ _).before fun package _ _ => .ite (.fails rfl) ?_
  exact (same_specEnd false).before fun _ _ _ => .pure _

/-- An import takes at least its path. -/
theorem same_importSpec (grouped : Bool) (us : List Token) :
    SameAt 1 us (importSpec grouped) (importSpec grouped) := by
  have halias : SameAt 0 us importAlias importAlias := by
    refine .of_suffix fun parsed hok => ?_
    rcases us with _ | ⟨t, vs⟩
    · cases hok
      exact List.suffix_refl _
    · rw [importAlias] at hok
      split at hok <;> cases hok
      · exact List.suffix_cons t vs
      · exact List.suffix_refl _
  refine halias.before fun written _ _ => (SameAt.expect _ _).first fun literal _ _ _ => ?_
  exact .ite (.fails rfl) ((same_specEnd grouped).before fun _ _ _ => .pure _)

/-- One round of the loop that reads imports. -/
def importsRound (more : Parser (List Import)) : Parser (List Import) := do
  if ← accept (.keyword .importKw) then
    let first ← group importSpec
    let others ← more
    return first ++ others
  return []

/-- The imports of a file are read in a loop, behind a keyword each. -/
theorem loop_imports : Loop (bounded imports) importsRound := by
  refine .bounded (fun _ => .pure _) (fun _ => rfl) fun us more more' hmore => ?_
  refine .accept _ (.pure _) fun vs hvs hlt => ?_
  refine (same_group same_importSpec).before fun _ ws hws => ?_
  exact (hmore.on hvs hlt ws hws).before fun _ _ _ => .pure _

/-! ### Declarations -/

variable {scope : Scope}

/-- What a name declares goes along the tokens, read or skipped. -/
theorem same_typeKind : SameAt 0 us (typeKind scope) (typeKind scope) := by
  have hunsupported (reason : String) : SameAt 0 us (unsupported reason) (unsupported reason) :=
    same_skipToEnd.before fun _ _ _ => .pure _
  have hdefinition : SameAt 0 us (typeDefinition scope) (typeDefinition scope) :=
    .accept _ ((same_typeExpr us).before fun _ _ _ => .pure _)
      fun vs _ _ => (same_typeExpr vs).before fun _ _ _ => .pure _
  refine .refl fun parsed hok => ?_
  rw [typeKind] at hok
  split at hok
  · exact (hunsupported _).2 parsed hok
  · split at hok
    next hread =>
      cases hok
      exact hdefinition.2 parsed hread
    next =>
      split at hok
      · exact (hunsupported _).2 parsed hok
      · cases hok

/-- The spec of a type takes at least its name. -/
theorem same_typeSpec (grouped : Bool) (us : List Token) :
    SameAt 1 us (typeSpec scope grouped) (typeSpec scope grouped) := by
  refine (SameAt.expect _ _).first fun _ _ _ _ => same_typeKind.before fun _ _ _ => ?_
  exact (same_specEnd grouped).before fun _ _ _ => .pure _

/-- A function declaration goes along the tokens. -/
theorem same_funcDeclaration : SameAt 0 us funcDeclaration funcDeclaration := by
  have hreceiver : SameAt 0 us receiver receiver := by
    refine .of_suffix fun parsed hok => ?_
    rcases us with _ | ⟨t, vs⟩
    · cases hok
      exact List.suffix_refl _
    · rw [receiver] at hok
      split at hok
      · obtain ⟨rest, hrest, heq⟩ := except_bind_eq_ok.1 hok
        cases heq
        exact (suffix_of_skipParens hrest).trans (List.suffix_cons t vs)
      · cases hok
        exact List.suffix_refl _
  refine hreceiver.before fun isMethod _ _ => (SameAt.expect _ _).before fun declared _ _ => ?_
  exact same_skipDeclaration.before fun _ _ _ => .ite (.pure _) (.pure _)

/-- A spec of values takes at least its names. -/
theorem same_valueSpec (kind : ObjectKind) (us : List Token) :
    SameAt 1 us (valueSpec kind) (valueSpec kind) :=
  (same_names us).first fun _ _ _ _ => same_skipDeclaration.before fun _ _ _ => .pure _

/-- One round of the loop that reads declarations. -/
def declarationsRound (scope : Scope) (more : Parser (List Declaration)) :
    Parser (List Declaration) := do
  match ← peek 0 with
  | none => return []
  | some .semicolon =>
    skip
    more
  | some (.keyword .typeKw) =>
    skip
    let first ← group (typeSpec scope)
    return first ++ (← more)
  | some (.keyword .funcKw) =>
    skip
    let first ← funcDeclaration
    return first ++ (← more)
  | some (.keyword .varKw) =>
    skip
    let first ← group fun _ => valueSpec .var
    return first.flatten ++ (← more)
  | some (.keyword .constKw) =>
    skip
    let first ← group fun _ => valueSpec .const
    return first.flatten ++ (← more)
  | some (.keyword .importKw) => fail .lateImport
  | some _ => fail .notADeclaration

/-- **The declarations of a file are read in a loop**, and each round takes a token. -/
theorem loop_declarations : Loop (bounded (declarations scope)) (declarationsRound scope) := by
  refine .bounded (fun _ => .pure _) (fun _ => rfl) fun us more more' hmore => ?_
  rcases us with _ | ⟨t, vs⟩
  · exact .of_suffix fun parsed hok => by
      cases hok
      exact List.suffix_refl _
  -- every round that goes on has a token of its own, be it a semicolon that declares nothing
  have hbehind := hmore.on (List.suffix_cons t vs) (Nat.lt_succ_self _)
  have hall {ws : List Token} (hws : ws <:+ vs) (make : List Declaration → List Declaration) :
      SameAt 0 ws (more >>= fun others => pure (make others))
        (more' >>= fun others => pure (make others)) :=
    (hbehind ws hws).before fun _ _ _ => .pure _
  refine .of_ok (a := some t.kind) rfl (List.suffix_refl _) ?_
  have hskip {p q : Parser (List Declaration)} (h : SameAt 0 vs p q) :
      SameAt 0 (t :: vs) (skip >>= fun _ => p) (skip >>= fun _ => q) :=
    (SameAt.behind_skip t h).mono (Nat.zero_le 1)
  split
  · exact .pure _
  · exact hskip (hbehind vs (List.suffix_refl _))
  · exact hskip ((same_group same_typeSpec).before fun first _ hws => hall hws (first ++ ·))
  · exact hskip (same_funcDeclaration.before fun first _ hws => hall hws (first ++ ·))
  · exact hskip ((same_group fun _ => same_valueSpec _).before fun first _ hws =>
      hall hws (first.flatten ++ ·))
  · exact hskip ((same_group fun _ => same_valueSpec _).before fun first _ hws =>
      hall hws (first.flatten ++ ·))
  · exact .fail _
  · exact .fail _

end

/-- Declarations are read up to the end of the file. -/
theorem rest_of_reading {scope : Scope} {s : Stage} {tokens : List Token}
    {parsed : Parsed (List Declaration)} (h : reading scope s tokens = .ok parsed) :
    parsed.rest = [] := by
  induction hlength : tokens.length using Nat.strong_induction_on generalizing s tokens parsed with
  | _ length ih =>
    rcases reading_eq_ok_iff.1 h with ⟨-, -, rfl⟩ | ⟨first, more, hround, hmore, rfl⟩
    · rfl
    · change more.rest = []
      exact ih first.rest.length (hlength ▸ round_length hround) hmore rfl

/-- **A file that is read is read to its end.** -/
theorem rest_of_contents {path : String} {tokens : List Token} {parsed : Parsed Contents}
    (h : contents path tokens = .ok parsed) : parsed.rest = [] := by
  obtain ⟨clause, _, -, hbehind, rfl⟩ := bind_eq_ok.1 h
  obtain ⟨imported, _, -, hdeclared, rfl⟩ := bind_eq_ok.1 hbehind
  obtain ⟨declared, _, hreading, hpure, rfl⟩ := bind_eq_ok.1 hdeclared
  rw [bounded_declarations] at hreading
  cases hpure
  exact rest_of_reading hreading

/-! ### Counters -/

/-- **A loop along tokens that counts the delimiters that are open.** It stops at a token, with this
token or without it, or it goes on behind the token, and then the counter has gone up by one for a
delimiter that opens and down by one for a delimiter that closes. The counter is a natural number,
so it was not zero when it went down. -/
def Counts (opens closes : Kind → Bool) (skip : Nat → List Token → Except Failure (List Token)) :
    Prop :=
  ∀ depth t rest, skip depth (t :: rest) = .ok (t :: rest) ∨ skip depth (t :: rest) = .ok rest ∨
    ∃ depth', skip depth (t :: rest) = skip depth' rest ∧
      depth' + (closes t.kind).toNat = depth + (opens t.kind).toNat

/-- Skipping to the end of a declaration counts all delimiters. -/
theorem counts_skipNested : Counts Kind.isOpening Kind.isClosing skipNested := by
  have hkinds (k : Kind) : k.isOpening = true → k.isClosing = false := by
    cases k <;> simp [Kind.isOpening, Kind.isClosing]
  intro depth t rest
  cases depth with
  | zero =>
    rw [skipNested]
    split
    next => exact .inl rfl
    next hgoes =>
      refine .inr (.inr ⟨_, rfl, ?_⟩)
      have hcloses : t.kind.isClosing = false := by simpa using fun h => hgoes (.inr h)
      cases hopens : t.kind.isOpening <;> simp [hcloses]
  | succ depth =>
    rw [skipNested]
    refine .inr (.inr ?_)
    split
    next hopens => exact ⟨_, rfl, by simp [hopens, hkinds _ hopens]⟩
    next hopens =>
      split
      next hcloses => exact ⟨_, rfl, by simp [hopens, hcloses]⟩
      next hcloses => exact ⟨_, rfl, by simp [hopens, hcloses]⟩

/-- Skipping a receiver counts parentheses only. -/
theorem counts_skipParens : Counts (· = .leftParen) (· = .rightParen) skipParens := by
  intro depth t rest
  rw [skipParens.eq_def]
  dsimp only
  split
  next hopens => exact .inr (.inr ⟨_, rfl, by simp [hopens]⟩)
  next hopens =>
    split
    next hcloses =>
      cases depth with
      | zero => exact .inr (.inl rfl)
      | succ depth => exact .inr (.inr ⟨depth, rfl, by simp [hcloses]⟩)
    next hcloses => exact .inr (.inr ⟨depth, rfl, by simp [hopens, hcloses]⟩)

/-- Among some tokens no delimiter is closed that is not open, if `depth` are open before. -/
def StaysOpen (opens closes : Kind → Bool) (depth : Nat) (tokens : List Token) : Prop :=
  ∀ front, front <+: tokens →
    front.countP (fun t => closes t.kind) ≤ depth + front.countP fun t => opens t.kind

/-- **Whatever a loop that counts has gone past**, the counter was never below zero on the way. -/
theorem Counts.exists_passed {opens closes : Kind → Bool}
    {skip : Nat → List Token → Except Failure (List Token)} (h : Counts opens closes skip)
    (depth : Nat) (tokens : List Token) :
    ∃ passed behind, tokens = passed ++ behind ∧ StaysOpen opens closes depth passed ∧
      (behind ≠ [] → skip depth tokens = .ok behind ∨ skip depth tokens = .ok behind.tail) := by
  have hnat (b : Bool) : (if b = true then 1 else 0) = b.toNat := by cases b <;> rfl
  have hnil (depth : Nat) : StaysOpen opens closes depth [] := fun front hfront => by
    rw [List.prefix_nil.1 hfront]
    simp
  induction tokens generalizing depth with
  | nil => exact ⟨[], [], rfl, hnil depth, fun hne => (hne rfl).elim⟩
  | cons t rest ih =>
    rcases h depth t rest with hstops | hstops | ⟨depth', hgoes, hcounter⟩
    · exact ⟨[], t :: rest, rfl, hnil depth, fun _ => .inl hstops⟩
    · exact ⟨[], t :: rest, rfl, hnil depth, fun _ => .inr hstops⟩
    · obtain ⟨passed, behind, rfl, hopen, hresult⟩ := ih depth'
      refine ⟨t :: passed, behind, rfl, fun front hfront => ?_, fun hne => hgoes ▸ hresult hne⟩
      rcases front with _ | ⟨u, front⟩
      · simp
      · obtain ⟨rfl, htail⟩ := List.cons_prefix_cons.1 hfront
        have hbehind := hopen front htail
        rw [List.countP_cons, List.countP_cons, hnat, hnat]
        omega

/-- The length of an array is looked for along the tokens. Its counter goes by one at most; where it
is zero and a delimiter closes, it stays. -/
theorem lengthTokens_cons (depth : Nat) (t : Token) (rest : List Token) :
    lengthTokens depth (t :: rest) = some ([], rest) ∨
      ∃ depth', lengthTokens depth (t :: rest) =
          (lengthTokens depth' rest).map (fun found => (t :: found.1, found.2)) ∧
        depth' ≤ depth + 1 ∧ depth ≤ depth' + 1 := by
  rw [lengthTokens]
  split
  · exact .inl rfl
  · refine .inr ⟨_, rfl, ?_⟩
    split <;> omega

/-! ### Entries of parameter lists -/

/-- The name and the type of an entry, as far as they are written. -/
def Entry.written : Entry → Option String × Option GoType
  | lone name _ => (some name, none)
  | named name _ type _ => (some name, some type)
  | unnamed _ type _ => (none, some type)

/-- No entry has neither a name nor a type. -/
theorem Entry.written_ne (entry : Entry) : entry.written ≠ (none, none) := by
  cases entry <;> simp [written]

/-! ### Everything together -/

/-- **The readers of types descend behind tokens only.** -/
structure Scope.Descends (scope : Scope) : Prop where
  /-- They are what the equations without budgets have as their only solution. -/
  solution : ∀ r : Readers, r.next scope = r ↔ r = scope.readers
  /-- A descent depends on what is inside where a token has been read, and nowhere else. -/
  guarded : ∀ us (r r' : Readers), r.SameBehind us r' → (r.next scope).SameAt us (r'.next scope)
  /-- Each of them reads a token at least, and leaves what is behind. -/
  advances : ∀ us, scope.readers.SameAt us scope.readers

/-- **The loops go on behind tokens only**: those for the entries of parameter lists, the elements
of interfaces, the lines of structs, names, the specs of groups, imports, and declarations. -/
structure Scope.Iterates (scope : Scope) : Prop where
  entries : Loop (bounded (Entry.parseAll (typeExpr scope))) (Entry.further (typeExpr scope))
  elements : Loop (bounded (braced (element scope (typeExpr scope))))
    (bracedRound (element scope (typeExpr scope)))
  lines : Loop (bounded (braced (fields (typeExpr scope)))) (bracedRound (fields (typeExpr scope)))
  names : Loop Parser.names namesRound
  importSpecs : Loop (bounded (groupRest (importSpec true))) (groupRound (importSpec true))
  typeSpecs : Loop (bounded (groupRest (typeSpec scope true))) (groupRound (typeSpec scope true))
  valueSpecs : ∀ kind, Loop (bounded (groupRest (valueSpec kind))) (groupRound (valueSpec kind))
  imports : Loop (bounded Syntax.imports) importsRound
  declarations : Loop (bounded (declarations scope)) (declarationsRound scope)

/-- **The readers of files return.** A text is read as tokens up to its end or its first flaw, with
two tokens for a character at most. With any tokens, the readers of types descend and the loops of
the reader of files go on only behind tokens that they have read, so that their budgets are never
used up. The loops that look for an end go along the tokens; where they count delimiters, the
counter goes up and down by one and is never below zero, and the one for the length of an array goes
by one at most. Every entry of a parameter list has a name or a type. A file that is read is read to
its end, and a package clause to some place behind its beginning. -/
theorem readers_return :
    (∀ text, ∃ found, Lexing.Finds text found) ∧
    (∀ scope : Scope, scope.Descends ∧ scope.Iterates) ∧
    (Counts Kind.isOpening Kind.isClosing skipNested ∧ ∀ depth tokens, ∃ passed behind,
      tokens = passed ++ behind ∧ StaysOpen Kind.isOpening Kind.isClosing depth passed ∧
        (behind ≠ [] →
          skipNested depth tokens = .ok behind ∨ skipNested depth tokens = .ok behind.tail)) ∧
    (Counts (· = .leftParen) (· = .rightParen) skipParens ∧ ∀ depth tokens, ∃ passed behind,
      tokens = passed ++ behind ∧ StaysOpen (· = .leftParen) (· = .rightParen) depth passed ∧
        (behind ≠ [] →
          skipParens depth tokens = .ok behind ∨ skipParens depth tokens = .ok behind.tail)) ∧
    (∀ depth t rest, lengthTokens depth (t :: rest) = some ([], rest) ∨
      ∃ depth', lengthTokens depth (t :: rest) =
          (lengthTokens depth' rest).map (fun found => (t :: found.1, found.2)) ∧
        depth' ≤ depth + 1 ∧ depth ≤ depth' + 1) ∧
    (∀ entry : Entry, entry.written ≠ (none, none)) ∧
    (∀ path tokens parsed, contents path tokens = .ok parsed → parsed.rest = []) ∧
    ∀ tokens parsed, packageClause tokens = .ok parsed →
      parsed.rest <:+ tokens ∧ parsed.rest.length < tokens.length := by
  refine ⟨Lexing.exists_finds, fun scope => ⟨⟨fun r => ?_, ?_, scope.same_readers⟩, ?_⟩,
    ⟨counts_skipNested, counts_skipNested.exists_passed⟩,
    ⟨counts_skipParens, counts_skipParens.exists_passed⟩, lengthTokens_cons, Entry.written_ne,
    fun _ _ _ => rest_of_contents, fun tokens => same_packageClause.2⟩
  · exact ⟨Scope.eq_readers, fun h => h ▸ scope.next_readers⟩
  · exact fun us r r' => Readers.same_next
  · exact {
      entries := loop_entries
      elements := loop_elements
      lines := loop_fields
      names := loop_names
      importSpecs := loop_group (same_importSpec true)
      typeSpecs := loop_group (same_typeSpec true)
      valueSpecs := fun kind => loop_group (same_valueSpec kind)
      imports := loop_imports
      declarations := loop_declarations }

end Syntax

end Multicast
