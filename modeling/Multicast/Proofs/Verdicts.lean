import Multicast.Proofs.Outcomes
import Multicast.Proofs.TypesAgain

/-!
# What comes of reading written types

A written type is read as its verdict says (`meets_typeWithin`): part by part, each reader of the grammar
meets the verdicts on what is written for it, if the reader of the types inside it does.

## One lemma per construct, relative to the types inside

`Understood` says what a reader of types does on written types of some depth. Given that, each construct
of the grammar is settled: names with type arguments, entries, parameter lists, results, items between
braces, elements, lines of a struct. The theorem for one level (`understood_form`) collects them, and the
depth is an induction on top of it.

Most of the length comes from what is *not* read: for every construct it has to be said where the reading
stops and in which way, and the answer is the verdict that the grammar has given.
-/

namespace Multicast.Syntax

open Source Multicast.Syntax.Parser

/-! ### What is known of the types inside

Beside the verdicts it has to be known what the reader does where the length of an array stands alone,
since this is what it finds behind a name that is taken for that of a parameter. -/

/-- Whether a type may begin with a token of this kind. -/
def beginsType (kind : Kind) : Bool :=
  startsResult kind || kind = .leftParen

/-- Whether a written type can end before a token of this kind. -/
def endsWritten (next : Option Kind) : Bool :=
  endsType next || next = some .pipe

theorem ne_of_endsWritten {next : Option Kind} (h : endsWritten next = true) {kind : Kind}
    (hkind : endsWritten (some kind) = false) : next ≠ some kind := by
  rintro rfl
  rw [hkind] at h
  cases h

/-- **Types that are understood** by a reader: it meets the verdicts on them, and refuses the length of an
array alone. Apart from that it matters how they begin. -/
structure Understood (T : Verdict → List Word → Prop) (type : Parser GoType) : Prop where
  meets : ∀ {v words}, T v words → type.Meets v words (fun _ => True) (endsWritten ·)
  refuses : ∀ {words : List Word} (opening closing : String), Nested (words.map Word.kind) →
    type.Meets .missed (⟨.leftBracket, opening⟩ :: (words ++ [⟨.rightBracket, closing⟩]))
      (fun _ => True) (endsWritten ·)
  begins : ∀ {v words}, T v words → ∃ w rest, words = w :: rest ∧ beginsType w.kind = true
  names : ∀ {v name more}, T v (⟨.identifier, name⟩ :: more) → more = [] ∧ v = .plain ∨
    leading more none = some .dot ∨ ∃ words opening closing, Nested (words.map Word.kind) ∧
      more = ⟨.leftBracket, opening⟩ :: (words ++ [⟨.rightBracket, closing⟩])

section

variable {scope : Scope} {T : Verdict → List Word → Prop} {type : Parser GoType} {v : Verdict}
  {words : List Word} {follow : Option Kind → Prop}

/-- What follows a type cannot begin one. -/
theorem Understood.leading_ne (hu : Understood T type) (h : T v words) {kind : Kind}
    (hkind : beginsType kind = false) (next : Option Kind) : leading words next ≠ some kind := by
  obtain ⟨w, rest, rfl, hw⟩ := hu.begins h
  rintro heq
  rw [leading_cons, Option.some.injEq] at heq
  rw [heq, hkind] at hw
  cases hw

/-- What may stand behind a name that a type begins with: nothing, a dot, or brackets. -/
theorem Understood.name_cases (hu : Understood T type) {name : String} {more : List Word}
    (h : T v (⟨.identifier, name⟩ :: more)) : more = [] ∧ v = .plain ∨
    (∃ second others, more = second :: others ∧ second.kind = .dot ∧
      v.asEntry (⟨.identifier, name⟩ :: second :: others) = v) ∨
    ∃ words opening closing, Nested (words.map Word.kind) ∧
      more = ⟨.leftBracket, opening⟩ :: (words ++ [⟨.rightBracket, closing⟩]) := by
  refine (hu.names h).imp id (.imp (fun hdot => ?_) id)
  obtain ⟨second, others, rfl⟩ : ∃ second others, more = second :: others :=
    List.exists_cons_of_ne_nil fun hnil => by simp [hnil] at hdot
  have hsecond : second.kind = .dot := by simpa using hdot
  exact ⟨second, others, rfl, hsecond, by simp [Verdict.asEntry, opensInstance, hsecond]⟩

/-! ### Names -/

/-- A type name is read, and what stands behind it decides. -/
theorem meets_typeName {name tail : List Word} (h : Written.TypeName scope name)
    (hdot : ∀ next, follow next → leading tail next ≠ some .dot)
    (htail : ∀ (first : Token) (t : GoType), Meets (Parser.at? .leftBracket >>= fun b =>
      if b then failAt first.pos .instantiation >>= fun _ : Unit => pure t else pure t) v tail
        (fun _ => True) follow) :
    scope.typeName.Meets v (name ++ tail) (fun _ => True) follow := by
  cases h with
  | bare name =>
    refine .expect rfl fun first _ => .accept_ne hdot ?_
    exact .before (reads_localType first.text first.pos) fun t _ => htail first t
  | @qualified q hq dot name =>
    refine .expect rfl fun first hfirst => .accept_eq rfl (.expect rfl fun second _ => ?_)
    obtain ⟨package, hpackage⟩ := Option.isSome_iff_exists.1 hq
    have htext : first.text = q := congrArg Word.text hfirst
    rw [htext, hpackage]
    exact .pure_bind (htail first _)

/-- **Type arguments are seen** behind a type name. -/
theorem meets_name (h : Written.Name scope T v words) :
    scope.typeName.Meets v words (fun _ => True) (endsWritten ·) := by
  cases h with
  | plain h =>
    rw [← List.append_nil words]
    refine meets_typeName h (fun next hnext => ne_of_endsWritten hnext rfl) fun first t => ?_
    refine .at? (b := false) (fun next hnext => ?_) (.pure trivial)
    simpa using ne_of_endsWritten hnext rfl
  | applied h _ opening closing =>
    refine meets_typeName h (by simp) fun first t => .at? (b := true) (by simp) ?_
    exact fun tokens rest _ _ => ⟨_, rfl, rfl⟩

/-! ### Parameter lists

Type arguments behind a name are missed if the name is taken for that of a parameter. Whether it is
depends on the token behind it, and so the verdict on an entry is not that on its type. -/

/-- An entry that begins with a name. -/
theorem meets_behindName {name : String} {more : List Word} {post : Entry → Prop}
    (h : ∀ next, follow next → (Entry.readBehindName type (leading more next)).Meets v
      (⟨.identifier, name⟩ :: more) post follow) :
    (Entry.parse type).Meets v (⟨.identifier, name⟩ :: more) post follow := by
  refine .step fun tokens rest htokens hrest => ?_
  obtain ⟨t, ts, rfl, ht, hts⟩ := cons_of_map_word htokens
  refine ⟨_, t :: ts, _, ?_, htokens, h _ hrest⟩
  rw [← nextKind_append hts]
  exact parse_readBehindName type t _ (congrArg Word.kind ht)

/-- An entry that begins with something else. -/
theorem meets_unnamed {w : Word} {more : List Word} {post : Entry → Prop} (hw : w.kind ≠ .identifier)
    (h : (Entry.readUnnamed type).Meets v (w :: more) post follow) :
    (Entry.parse type).Meets v (w :: more) post follow := by
  refine .step fun tokens rest htokens _ => ⟨_, tokens, _, ?_, htokens, h⟩
  refine parse_readUnnamed type hw _ ?_
  rw [nextKind_append htokens]
  rfl

/-- What may follow an entry. -/
def endsEntry (next : Option Kind) : Prop :=
  next = some .comma ∨ next = some .rightParen

theorem endsWritten_of_endsEntry {next : Option Kind} (h : endsEntry next) : endsWritten next = true := by
  rcases h with rfl | rfl <;> rfl

/-- A written entry is read as one with a name, or with dots, if it has them. -/
theorem meets_entry (hu : Understood T type) {named dots : Bool}
    (h : Written.Entry T named dots v words) :
    (Entry.parse type).Meets v words (fun e => e.isNamed = named ∧ e.hasDots = dots) endsEntry := by
  have hwritten {v : Verdict} {words : List Word} (h : T v words) (make : GoType → Entry)
      {named dots : Bool} (hmake : ∀ t, (make t).isNamed = named ∧ (make t).hasDots = dots) :
      (type >>= fun written => pure (make written)).Meets v words
        (fun e => e.isNamed = named ∧ e.hasDots = dots) endsEntry :=
    ((hu.meets h).imp (fun _ h => h) fun next => endsWritten_of_endsEntry).map fun t _ => .pure (hmake t)
  cases h with
  | named name h =>
    refine meets_behindName fun next _ => ?_
    rw [Entry.readBehindName, if_neg, if_pos (hu.leading_ne h rfl next)]
    · refine .expect rfl fun t _ => .accept_ne (fun next _ => hu.leading_ne h rfl next) ?_
      exact hwritten h _ fun t => ⟨rfl, rfl⟩
    · exact not_or.2 ⟨hu.leading_ne h rfl next, hu.leading_ne h rfl next⟩
  | namedDots name dots h =>
    refine meets_behindName fun next _ => ?_
    rw [Entry.readBehindName, if_neg (by simp), if_pos (by simp)]
    refine .expect rfl fun t _ => .accept_eq rfl ?_
    exact hwritten h _ fun t => ⟨rfl, rfl⟩
  | unnamedDots dots h =>
    refine meets_unnamed (by simp) (.here fun pos => .accept_eq rfl ?_)
    exact hwritten h _ fun t => ⟨rfl, rfl⟩
  | @unnamed v type' h =>
    have hother : (Entry.readUnnamed type).Meets v words
        (fun e => e.isNamed = false ∧ e.hasDots = false) endsEntry := by
      refine .here fun pos => .accept_ne (fun next _ => hu.leading_ne h rfl next) ?_
      exact hwritten h _ fun t => ⟨rfl, rfl⟩
    obtain ⟨⟨kind, name⟩, more, rfl, -⟩ := hu.begins h
    by_cases hkind : kind = .identifier
    · subst hkind
      -- behind a name that stands alone, only a dot or a bracket may come
      rcases hu.name_cases h with ⟨rfl, rfl⟩ | ⟨second, more, rfl, hsecond, hplain⟩ |
        ⟨arguments, opening, closing, hnested, rfl⟩
      · refine meets_behindName fun next hnext => ?_
        have hlone : next = some .comma ∨ next = some .rightParen := hnext
        rw [Entry.readBehindName, leading_nil, if_pos hlone]
        exact .expect rfl fun t _ => .pure ⟨rfl, rfl⟩
      · rw [hplain]
        refine meets_behindName fun next _ => ?_
        rw [Entry.readBehindName, if_neg (by simp [hsecond]), if_neg (by simp [hsecond])]
        exact hother
      · refine meets_behindName fun next _ => ?_
        rw [Entry.readBehindName, if_neg (by simp), if_pos (by simp)]
        have hmissed : v.asEntry (⟨.identifier, name⟩ :: ⟨.leftBracket, opening⟩ ::
            (arguments ++ [⟨.rightBracket, closing⟩])) = .missed := rfl
        rw [hmissed]
        refine .expect rfl fun t _ => .accept_ne (by simp) (.of_fails (by simp) ?_)
        exact (hu.refuses opening closing hnested).imp (fun _ h => h) fun next =>
          endsWritten_of_endsEntry
    · have hplain : v.asEntry (⟨kind, name⟩ :: more) = v := by
        cases more <;> simp [Verdict.asEntry, opensInstance, hkind]
      rw [hplain]
      exact meets_unnamed hkind hother

/-- What makes entries a parameter list: none of them or all of them have names, and no name is left to
wait. If `waits` holds, names wait in front of them. -/
structure Settles (scope : Scope) (allowDots named waits : Bool) (entries : List Entry) : Prop where
  names : entries = [] ∧ waits = false ∨ entries.any Entry.isNamed = named
  resolves : ∀ waiting : List String, (waits = false ∨ named = false → waiting = []) →
    (resolve scope allowDots named entries waiting).Reads [] (fun _ => True) fun _ => True

theorem settles_nil {allowDots named : Bool} : Settles scope allowDots named false [] where
  names := .inl ⟨rfl, rfl⟩
  resolves waiting hwaiting := by
    obtain rfl := hwaiting (.inl rfl)
    exact .pure trivial

/-- A name waits for the type of the entries behind it. -/
theorem Settles.waiting {allowDots waits : Bool} {entries : List Entry} (name : String)
    (pos : Position) (h : Settles scope allowDots true true entries) :
    Settles scope allowDots true waits (.lone name pos :: entries) where
  names := by
    obtain ⟨-, hwaits⟩ | hany := h.names
    · cases hwaits
    · exact .inr (by rw [List.any_cons, hany, Bool.or_true])
  resolves waiting _ := by
    rw [resolve, if_pos rfl]
    exact h.resolves _ (by simp)

/-- An entry with a type of its own. Three dots stand in the last one at most. -/
theorem Settles.cons {allowDots named waits : Bool} {entries : List Entry} {e : Entry}
    (he : e.isNamed = named)
    (hdots : e.hasDots = true → allowDots = true ∧ waits = false ∧ entries = [])
    (h : Settles scope allowDots named false entries) :
    Settles scope allowDots named waits (e :: entries) where
  names := by
    right
    rw [List.any_cons, he]
    obtain ⟨rfl, -⟩ | hany := h.names
    · simp
    · rw [hany, Bool.or_self]
  resolves waiting hwaiting := by
    have hmore := h.resolves [] fun _ => rfl
    have hplaced : e.hasDots = true → (allowDots && entries.isEmpty && waiting.isEmpty) = true := by
      intro hhas
      obtain ⟨hallow, hwaits, rfl⟩ := hdots hhas
      rw [hwaiting (.inl hwaits), hallow]
      rfl
    cases e with
    | lone name pos =>
      obtain rfl : false = named := he
      obtain rfl := hwaiting (.inr rfl)
      refine .before (reads_localType name pos) fun t _ => ?_
      exact hmore.map fun _ _ => .pure trivial
    | named name dots type pos =>
      have hcheck : (dots && !(allowDots && entries.isEmpty && waiting.isEmpty)) = false := by
        cases dots with
        | false => rfl
        | true => rw [hplaced rfl]; rfl
      rw [resolve, hcheck, if_neg Bool.false_ne_true]
      exact hmore.map fun _ _ => .pure trivial
    | unnamed dots type pos =>
      obtain rfl : false = named := he
      obtain rfl := hwaiting (.inr rfl)
      have hcheck : (dots && !(allowDots && entries.isEmpty && List.isEmpty ([] : List String))) =
          false := by
        cases dots with
        | false => rfl
        | true => rw [hplaced rfl]; rfl
      rw [resolve, hcheck, if_neg Bool.false_ne_true, if_neg Bool.false_ne_true]
      exact hmore.map fun _ _ => .pure trivial

/-- An entry has a first word, and that does not close the list. -/
theorem exists_entry_eq_cons (hu : Understood T type) {named dots : Bool}
    (h : Written.Entry T named dots v words) :
    ∃ w rest, words = w :: rest ∧ w.kind ≠ .rightParen := by
  cases h with
  | named | namedDots | unnamedDots => exact ⟨_, _, rfl, by simp⟩
  | unnamed h =>
    obtain ⟨w, rest, rfl, hw⟩ := hu.begins h
    refine ⟨w, rest, rfl, ?_⟩
    rintro hkind
    rw [hkind] at hw
    cases hw

/-- **Written entries make a parameter list**, if all of them are read. Nothing is behind a lone
parenthesis. -/
theorem meets_entries (hu : Understood T type) {allowDots named waits : Bool}
    (h : Written.Entries T allowDots named waits v words) {n : Nat} (hn : words.length < n) :
    (Entry.parseAll type n).Meets v words
      (fun es => Settles scope allowDots named waits es ∧ (words.length = 1 → es = [])) fun _ => True := by
  induction h generalizing n with
  | close paren =>
    obtain ⟨n, rfl⟩ := Nat.exists_eq_succ_of_ne_zero (Nat.ne_zero_of_lt hn)
    exact .accept_eq rfl (.pure ⟨settles_nil, fun _ => rfl⟩)
  -- a lone name is read without regard to its scope, so it waits whatever it may be
  | @waiting waits name comma v others hnamed h ih =>
    obtain ⟨n, rfl⟩ := Nat.exists_eq_succ_of_ne_zero (Nat.ne_zero_of_lt hn)
    subst hnamed
    have hlone : (Entry.parse type).Meets .plain [⟨.identifier, name⟩]
        (fun e => ∃ pos, e = .lone name pos) endsEntry := .of_reads (Entry.reads_lone name)
    refine .accept_ne (by simp) (hlone.bind (fun next _ => .inl rfl) fun e he => .accept_eq rfl ?_)
    obtain ⟨pos, rfl⟩ := he
    rw [List.length_cons, List.length_cons] at hn
    refine (ih (n := n) (by omega)).map fun es hes => .pure ⟨hes.1.waiting name pos, ?_⟩
    simp
  | @last waits dots v entry h hdots paren =>
    obtain ⟨n, rfl⟩ := Nat.exists_eq_succ_of_ne_zero (Nat.ne_zero_of_lt hn)
    obtain ⟨w, rest, rfl, hw⟩ := exists_entry_eq_cons hu h
    refine .accept_ne (by simp [hw]) ?_
    rw [← Verdict.andThen_plain v]
    refine (meets_entry hu h).bind (fun next _ => .inr rfl) fun e he => ?_
    refine .accept_ne (by simp) (.at? (b := true) (by simp) ?_)
    -- there is no comma behind the last entry, so the next round closes the list
    have hclose : (Entry.parseAll type n).Meets .plain [⟨.rightParen, paren⟩] (· = [])
        fun _ => True := by
      obtain ⟨n, rfl⟩ := Nat.exists_eq_succ_of_ne_zero (n := n) fun hzero => by simp [hzero] at hn
      exact .accept_eq rfl (.pure rfl)
    refine hclose.map fun es hes => .pure ⟨?_, by simp⟩
    subst hes
    refine settles_nil.cons he.1 fun hhas => ?_
    exact ⟨(hdots (he.2 ▸ hhas)).1, (hdots (he.2 ▸ hhas)).2, rfl⟩
  | @more waits dots v v' entry others h hdots comma hothers ih =>
    obtain ⟨n, rfl⟩ := Nat.exists_eq_succ_of_ne_zero (Nat.ne_zero_of_lt hn)
    obtain ⟨w, rest, rfl, hw⟩ := exists_entry_eq_cons hu h
    refine .accept_ne (by simp [hw]) ?_
    refine (meets_entry hu h).bind (fun next _ => .inl rfl) fun e he => .accept_eq rfl ?_
    -- what is left is shorter, and so within what is left of the budget
    have hlength : others.length < n := by
      rw [List.length_append, List.length_cons, List.length_cons] at hn
      omega
    refine (ih hlength).map fun es hes => .pure ⟨hes.1.cons he.1 fun hhas => ?_, by simp⟩
    obtain ⟨hallow, hwaits, paren, rfl⟩ := hdots (he.2 ▸ hhas)
    exact ⟨hallow, hwaits, hes.2 rfl⟩

theorem meets_parameters (hu : Understood T type) {allowDots : Bool}
    (h : Written.Parameters T allowDots v words) :
    (parameters scope type allowDots).Meets v words (fun _ => True) fun _ => True := by
  cases h with
  | @list paren named v entries h =>
    have hentries : (Parser.bounded (Entry.parseAll type)).Meets v entries
        (fun es => Settles scope allowDots named false es ∧ (entries.length = 1 → es = []))
        fun _ => True := .bounded fun n hn => meets_entries hu h hn
    refine .expect rfl fun _ _ => hentries.map fun es hes => ?_
    obtain ⟨rfl, -⟩ | hnamed := hes.1.names
    · exact .pure trivial
    · rw [hnamed]
      exact hes.1.resolves [] fun _ => rfl

theorem leading_parameters {allowDots : Bool} (h : Written.Parameters T allowDots v words)
    (next : Option Kind) : leading words next = some .leftParen := by
  cases h
  rfl

/-- Behind a type no results begin. -/
theorem startsResult_of_endsWritten {next : Option Kind} (h : endsWritten next = true) :
    next.any startsResult = false := by
  cases next with
  | none => rfl
  | some kind =>
    revert h
    cases kind <;> simp [endsWritten, endsType, startsResult]

/-- **The parameters and results of a function.** -/
theorem meets_signature (hu : Understood T type) (h : Written.Signature T v words) :
    (signature scope type).Meets v words (fun _ => True) (endsWritten ·) := by
  cases h with
  | bare h =>
    rw [← List.append_nil words, ← Verdict.andThen_plain v]
    refine (meets_parameters hu h).bind (fun _ _ => trivial) fun list _ => ?_
    refine .at? (b := false) (fun next hnext => ?_) (.peek fun next hnext => ?_)
    · simpa using ne_of_endsWritten hnext rfl
    · rw [leading_nil, startsResult_of_endsWritten hnext]
      exact .pure_bind (.pure trivial)
  | @result v v' list type' h h' hparen =>
    refine (meets_parameters hu h).bind (fun _ _ => trivial) fun list _ => ?_
    obtain ⟨w, rest, rfl, hw⟩ := hu.begins h'
    have hother : w.kind ≠ .leftParen := by simpa using hparen
    have hstarts : startsResult w.kind = true := by simpa [beginsType, hother] using hw
    refine .at? (b := false) (fun next _ => by simpa using hother) (.peek fun next _ => ?_)
    rw [leading_cons, Option.any_some, hstarts]
    exact (hu.meets h').map fun t _ => .pure_bind (.pure trivial)
  | results h h' =>
    refine (meets_parameters hu h).bind (fun _ _ => trivial) fun list _ => ?_
    refine .at? (b := true) (fun next _ => ?_) (.peek fun next _ => ?_)
    · simp [leading_parameters h']
    · refine Meets.map ((meets_parameters hu h').imp (fun _ h => h) fun _ _ => trivial) fun _ _ => ?_
      exact .pure_bind (.pure trivial)

/-! ### Interfaces -/

theorem endsWritten_of_endsItem {next : Option Kind} (h : endsItem next) :
    endsWritten next = true := by
  rcases h with rfl | rfl <;> rfl

theorem braced_semicolon {α : Type} {item : Parser α} {n : Nat} {t : Token} (ht : t.kind = .semicolon)
    (tokens : List Token) : braced item (n + 1) (t :: tokens) = braced item (n + 1) tokens := by
  rw [braced]
  exact bind_congr_first (skipSemicolons_cons ht tokens)

/-- **Items between braces are read one by one.** -/
theorem meets_braced {α : Type} {I : Verdict → List Word → Prop} {item : Parser α}
    (hitem : ∀ {v words}, I v words → item.Meets v words (fun _ => True) endsItem)
    (hstart : ∀ {v words}, I v words → ∃ w rest, words = w :: rest ∧ w.kind ≠ .semicolon ∧
      w.kind ≠ .rightBrace)
    (h : Written.Braced I v words) {n : Nat} (hn : words.length < n) :
    (braced item n).Meets v words (fun _ => True) follow := by
  refine Meets.imp ?_ (fun _ h => h) fun _ _ => trivial
  obtain ⟨n, rfl⟩ := Nat.exists_eq_succ_of_ne_zero (Nat.ne_zero_of_lt hn)
  induction h generalizing n with
  | close brace => exact .skipSemicolons (by simp) (.accept_eq rfl (.pure trivial))
  | semicolon text _ ih => exact .semicolon rfl (ih n (by simp at hn ⊢; omega))
  | @item v v' first others h h' hends ih =>
    obtain ⟨w, rest, rfl, hsemicolon, hbrace⟩ := hstart h
    obtain ⟨w', behind, rfl⟩ : ∃ w' behind, others = w' :: behind :=
      List.exists_cons_of_ne_nil fun hnil => by simp [hnil] at hends
    obtain ⟨n, rfl⟩ := Nat.exists_eq_succ_of_ne_zero (n := n) fun hzero => by
      rw [hzero, List.length_append, List.length_cons, List.length_cons] at hn
      omega
    have hmore := ih n (by simp at hn ⊢; omega)
    refine .skipSemicolons (by simp [hsemicolon]) (.accept_ne (by simp [hbrace]) ?_)
    refine (hitem h).bind (fun next _ => by simpa [endsItem] using hends) fun a _ => ?_
    by_cases hclose : w'.kind = .rightBrace
    · refine .at? (b := true) (by simp [hclose]) ?_
      exact hmore.map fun _ _ => .pure trivial
    · have hsemicolon' : w'.kind = .semicolon := by simpa [hclose] using hends
      refine .at? (b := false) (by simp [hclose]) (.expect hsemicolon' fun t ht => ?_)
      -- the reader of what is behind would have skipped the semicolon too
      have hbehind : (braced item (n + 1)).Meets v' behind (fun _ => True) fun _ => True := by
        intro tokens rest htokens _
        have hall := hmore (t :: tokens) rest (by rw [List.map_cons, ht, htokens]) trivial
        rwa [List.cons_append, braced_semicolon (by rw [← hsemicolon', ← ht]; rfl)] at hall
      exact hbehind.map fun _ _ => .pure trivial

theorem leading_append_of_eq {words : List Word} {kind : Kind} (h : leading words none = some kind)
    (more : List Word) (next : Option Kind) : leading (words ++ more) next = some kind := by
  cases words with
  | nil => cases h
  | cons w words => exact h

/-- An element that begins with a type is embedded, and is not a method. -/
theorem meets_element_of_type (hu : Understood T type) {v' : Verdict} {written tail : List Word}
    (h : T v written) (htail : ∀ next, endsItem next → endsWritten (leading tail next) = true)
    (hembedded : (embeddedElement type).Meets v' (written ++ tail) (fun _ => True) endsItem) :
    (element scope type).Meets v' (written ++ tail) (fun _ => True) endsItem := by
  obtain ⟨⟨kind, text⟩, rest, rfl, hw⟩ := hu.begins h
  rw [List.cons_append] at hembedded ⊢
  rw [element_eq]
  refine .peek fun next _ => .peek_one fun next' hnext => ?_
  rw [leading_cons]
  by_cases hkind : kind = .identifier
  · subst hkind
    have hparen : leading (rest ++ tail) next' ≠ some .leftParen := by
      rcases hu.names h with ⟨rfl, -⟩ | hdot | ⟨_, _, _, -, rfl⟩
      · exact ne_of_endsWritten (htail next' hnext) rfl
      · rw [leading_append_of_eq hdot]
        simp
      · simp
    rw [if_pos rfl, elementBehindName, if_neg hparen]
    exact hembedded
  · have htilde : kind ≠ .tilde := by
      rintro rfl
      cases hw
    rw [if_neg (by simpa using hkind), if_neg (by simpa using htilde)]
    exact hembedded

/-- **An element of an interface.** What restricts type arguments is seen behind its first term, or
before. -/
theorem meets_element (hu : Understood T type) (h : Written.Element T v words) :
    (element scope type).Meets v words (fun _ => True) endsItem := by
  -- a tilde is refused at once, whatever is behind it
  have htilde (tilde : String) (words : List Word) :
      (element scope type).Meets .seen (⟨.tilde, tilde⟩ :: words) (fun _ => True) endsItem := by
    rw [element_eq]
    refine .peek fun next _ => .peek_one fun next' _ => ?_
    exact fun tokens rest _ _ => ⟨_, rfl, rfl⟩
  cases h with
  | @method name v signature h =>
    -- a method is told from an embedded type by its parenthesis
    have hparen (next : Option Kind) : leading signature next = some .leftParen := by
      cases h with
      | bare h => exact leading_parameters h next
      | result h _ _ => exact leading_append_of_eq (leading_parameters h none) _ next
      | results h _ => exact leading_append_of_eq (leading_parameters h none) _ next
    rw [element_eq]
    refine .peek fun next _ => .peek_one fun next' _ => ?_
    rw [leading_cons, if_pos rfl, hparen, elementBehindName, if_pos rfl]
    refine .expect rfl fun first _ => ?_
    refine Meets.map ((meets_signature hu h).imp (fun _ h => h) fun next => endsWritten_of_endsItem)
      fun _ _ => .pure trivial
  | union h =>
    cases h with
    | last h =>
      cases h with
      | type h =>
        rw [← List.append_nil words]
        refine meets_element_of_type hu h (fun next => endsWritten_of_endsItem) ?_
        rw [← Verdict.andThen_plain v]
        refine .here fun pos => (hu.meets h).bind (fun next => endsWritten_of_endsItem) fun t _ => ?_
        refine .at? (b := false) (fun next hnext => ?_) (.pure trivial)
        rcases hnext with rfl | rfl <;> rfl
      | underlying tilde h => exact htilde tilde _
    | more h pipe h' =>
      cases h with
      | type h =>
        refine meets_element_of_type hu h (fun _ _ => rfl) ?_
        refine .here fun pos => (hu.meets h).bind (fun _ _ => rfl) fun t _ => ?_
        -- the first term has been read as a type, and the bar behind it is seen
        refine .at? (b := true) (by simp) ?_
        exact fun tokens rest _ _ => ⟨_, rfl, rfl⟩
      | underlying tilde h => exact htilde tilde _

/-! ### Structs -/

theorem meets_names (h : Written.Names words) :
    Meets names .plain words (fun _ => True) (· ≠ some .comma) := by
  induction h with
  | last name => exact .of_reads ((reads_names name).imp (fun _ _ => trivial) fun _ h => h)
  | more name comma h ih =>
    intro tokens rest htokens hrest
    obtain ⟨t, ts, rfl, ht, hts⟩ := cons_of_map_word htokens
    obtain ⟨c, us, rfl, hc, hus⟩ := cons_of_map_word hts
    obtain ⟨value, references, heq, -⟩ := ih us rest hus hrest
    have hname : t.kind = .identifier := congrArg Word.kind ht
    have hcomma : c.kind = .comma := congrArg Word.kind hc
    obtain ⟨_, _, ⟨⟩, hnames⟩ := names_eq_ok.1 heq
    exact ⟨_, _, names_eq_ok.2 ⟨_, _, rfl, .more hname hcomma hnames⟩, trivial⟩

theorem meets_tag (h : Written.Tag words) : tag.Meets .plain words (fun _ => True) endsItem := by
  cases h with
  | none => exact .of_reads ((reads_tag none).imp (fun _ _ => trivial) fun _ h => h)
  | some text => exact .of_reads ((reads_tag (some text)).imp (fun _ _ => trivial) fun _ h => h)

/-- A type in a line of a struct, and the tag behind it. -/
theorem meets_tagged {α : Type} {written tag' : List Word}
    (h : type.Meets v written (fun _ => True) (endsWritten ·)) (htag : Written.Tag tag')
    (make : GoType → Option String → α) :
    (type >>= fun t => tag >>= fun tag => pure (make t tag) : Parser α).Meets v (written ++ tag')
      (fun _ => True) endsItem := by
  rw [← Verdict.andThen_plain v]
  refine h.bind (fun next hnext => ?_) fun t _ => (meets_tag htag).map fun _ _ => .pure trivial
  cases htag with
  | none => exact endsWritten_of_endsItem hnext
  | some text => rfl

/-- Behind names a type is read. -/
theorem meets_namedFields (hu : Understood T type) {names' written tag' : List Word}
    (hnames : Written.Names names') (h : T v written) (htag : Written.Tag tag') :
    (namedFields type).Meets v (names' ++ (written ++ tag')) (fun _ => True) endsItem := by
  rw [← Verdict.plain_andThen v]
  refine (meets_names hnames).bind (fun next _ => ?_) fun ts _ => ?_
  · obtain ⟨w, rest, rfl, hw⟩ := hu.begins h
    rintro heq
    rw [List.cons_append, leading_cons, Option.some.injEq] at heq
    rw [heq] at hw
    cases hw
  · exact meets_tagged (hu.meets h) htag fun shared tag =>
      ts.map fun t => (⟨some t.text, shared, tag⟩ : Field)

/-- A line that begins with a name: the token behind it decides whether the name is a type. -/
theorem meets_fields {name : String} {more : List Word}
    (h : ∀ next, endsItem next → (if (leading more next).any endsEmbedded then embeddedField type
      else namedFields type).Meets v (⟨.identifier, name⟩ :: more) (fun _ => True) endsItem) :
    (fields type).Meets v (⟨.identifier, name⟩ :: more) (fun _ => True) endsItem :=
  .peek fun _ _ => .peek_one fun next hnext => h next hnext

/-- **A line of a struct.** Type arguments of an embedded type are missed if the name of the type stands
in front of the line. -/
theorem meets_line (hu : Understood T type) (h : Written.Line T v words) :
    (fields type).Meets v words (fun _ => True) endsItem := by
  cases h with
  | @named names' written tag' hnames v h htag =>
    have hfields := meets_namedFields hu hnames h htag
    cases hnames with
    | last name =>
      rw [List.cons_append, List.nil_append] at hfields ⊢
      refine meets_fields fun next _ => ?_
      obtain ⟨w, rest, rfl, hw⟩ := hu.begins h
      have hnot : endsEmbedded w.kind = false := by
        revert hw
        cases w.kind <;> simp [beginsType, startsResult, endsEmbedded]
      rw [List.cons_append, leading_cons, Option.any_some, hnot]
      exact hfields
    | more name comma h => exact meets_fields fun next _ => hfields
  | @embedded written tag' v h hembedded htag =>
    have hfield : (embeddedField type).Meets v (written ++ tag') (fun _ => True) endsItem :=
      meets_tagged (hu.meets h) htag fun embedded tag => [(⟨none, embedded, tag⟩ : Field)]
    have htagged (next : Option Kind) (hnext : endsItem next) :
        endsWritten (leading tag' next) = true ∧ (leading tag' next).any endsEmbedded = true := by
      cases htag with
      | none => rcases hnext with rfl | rfl <;> exact ⟨rfl, rfl⟩
      | some text => exact ⟨rfl, rfl⟩
    rcases Written.embedded_cases hembedded with ⟨name, more, rfl⟩ | ⟨star, name, more, rfl⟩
    · rw [List.cons_append] at hfield ⊢
      refine meets_fields fun next hnext => ?_
      rcases hu.name_cases h with ⟨rfl, -⟩ | ⟨second, more, rfl, hsecond, hplain⟩ |
        ⟨arguments, opening, closing, hnested, rfl⟩
      · rw [List.nil_append, (htagged next hnext).2]
        exact hfield
      · rw [hplain, List.cons_append, leading_cons, hsecond]
        exact hfield
      · -- the name is taken for the name of a field, and the arguments for a length
        rw [List.cons_append, leading_cons, Option.any_some]
        refine (meets_names (.last name)).bind (fun next _ => by simp) fun ts _ => ?_
        exact meets_tagged (hu.refuses opening closing hnested) htag fun shared tag =>
          ts.map fun t => (⟨some t.text, shared, tag⟩ : Field)
    · exact .peek fun next _ => hfield

/-! ### Types -/

/-- Nested tokens do not begin with a delimiter that closes something. -/
theorem Nested.leading_ne {words : List Word} (h : Nested (words.map Word.kind)) (hne : words ≠ [])
    (more : List Word) (next : Option Kind) : leading (words ++ more) next ≠ some .rightBracket := by
  cases words with
  | nil => exact absurd rfl hne
  | cons first words =>
    rintro heq
    rw [List.cons_append, leading_cons, Option.some.injEq] at heq
    have hdue := h []
    rw [List.map_cons, heq] at hdue
    cases hdue

theorem arrayLength_eq {tokens : List Token} {t : Token} (h : Nested (tokens.map Token.kind))
    (ht : t.kind = .rightBracket) (rest : List Token) : arrayLength (tokens ++ t :: rest) =
      if String.join (tokens.map Token.text) ∈ ["", "..."] then wanted .arrayLength rest
      else .ok ⟨String.join (tokens.map Token.text), [], rest⟩ := by
  rw [arrayLength_of_found (lengthTokens_of_nested h ht rest)]
  simp

/-- The length of an array is read with the bracket behind it. -/
theorem meets_arrayLength (h : Written.Length words) (closing : String) :
    arrayLength.Meets .plain (words ++ [⟨.rightBracket, closing⟩]) (fun _ => True) fun _ => True := by
  intro tokens rest htokens _
  obtain ⟨ts, us, rfl, rfl, hus⟩ := List.map_eq_append_iff.1 htokens
  obtain ⟨t, us, rfl, ht, hnil⟩ := cons_of_map_word hus
  obtain rfl := List.map_eq_nil_iff.1 hnil
  have hnested := h.nested
  have htext := h.text
  simp only [List.map_map] at hnested htext
  refine ⟨String.join (ts.map Token.text), [], ?_, trivial⟩
  rw [List.append_assoc]
  exact (arrayLength_eq hnested (congrArg Word.kind ht) rest).trans (if_neg htext)

/-- Where a type should begin and nothing does, it is refused. -/
theorem meets_typeWithin_nil (m : Nat) :
    (typeWithin scope m).Meets .missed [] (fun _ => True) (endsWritten ·) := by
  cases m with
  | zero => exact fun tokens rest _ _ => ⟨_, rfl, rfl⟩
  | succ m =>
    refine .peek fun next hnext => ?_
    rw [leading_nil]
    -- whatever may end a type does not begin one
    cases next with
    | none => exact fun tokens rest _ _ => ⟨_, rfl, rfl⟩
    | some kind =>
      cases kind <;> first
        | exact fun tokens rest _ _ => ⟨_, rfl, rfl⟩
        | cases hnext

/-- **The length of an array alone is refused.** -/
theorem meets_lone_length (m : Nat) (h : Nested (words.map Word.kind)) (opening closing : String) :
    (typeWithin scope m).Meets .missed
      (⟨.leftBracket, opening⟩ :: (words ++ [⟨.rightBracket, closing⟩])) (fun _ => True)
        (endsWritten ·) := by
  cases m with
  | zero => exact fun tokens rest _ _ => ⟨_, rfl, rfl⟩
  | succ m =>
    refine .peek fun next _ => .skip ?_
    by_cases hnil : words = []
    · subst hnil
      exact .accept_eq rfl (.of_fails (by simp) (meets_typeWithin_nil m))
    · refine .accept_ne (fun next _ => h.leading_ne hnil _ next) ?_
      intro tokens rest htokens hrest
      obtain ⟨ts, us, rfl, rfl, hus⟩ := List.map_eq_append_iff.1 htokens
      obtain ⟨t, us, rfl, ht, hnone⟩ := cons_of_map_word hus
      obtain rfl := List.map_eq_nil_iff.1 hnone
      rw [List.map_map] at h
      rw [List.append_assoc]
      have hlength := arrayLength_eq h (congrArg Word.kind ht) rest
      by_cases htext : String.join (ts.map Token.text) ∈ ["", "..."]
      · rw [if_pos htext] at hlength
        exact ⟨_, bind_eq_error.2 (.inl hlength), rfl⟩
      · rw [if_neg htext] at hlength
        obtain ⟨e, herror, hcause⟩ := meets_typeWithin_nil m [] rest rfl hrest
        exact ⟨e, bind_eq_error.2 (.inr ⟨_, hlength, bind_eq_error.2 (.inl herror)⟩), hcause⟩

theorem meets_interfaceBody (hu : Understood T type) {brace : String}
    (h : Written.Braced (Written.Element T) v words) :
    (interfaceBody scope type).Meets v (⟨.leftBrace, brace⟩ :: words) (fun _ => True) follow := by
  have hstart {v : Verdict} {words : List Word} (h : Written.Element T v words) :
      ∃ w rest, words = w :: rest ∧ w.kind ≠ .semicolon ∧ w.kind ≠ .rightBrace := by
    have hterm {v : Verdict} {words : List Word} (h : Written.Term T v words) (more : List Word) :
        ∃ w rest, words ++ more = w :: rest ∧ w.kind ≠ .semicolon ∧ w.kind ≠ .rightBrace := by
      cases h with
      | type h =>
        obtain ⟨w, rest, rfl, hw⟩ := hu.begins h
        exact ⟨w, rest ++ more, rfl, by rintro hkind; simp [hkind, beginsType, startsResult] at hw,
          by rintro hkind; simp [hkind, beginsType, startsResult] at hw⟩
      | underlying tilde h => exact ⟨_, _, rfl, by simp, by simp⟩
    cases h with
    | method name h => exact ⟨_, _, rfl, by simp, by simp⟩
    | union h =>
      cases h with
      | last h => simpa using hterm h []
      | more h pipe h' => exact hterm h _
  have hbody : (Parser.bounded (braced (element scope type))).Meets v words (fun _ => True) follow :=
    .bounded fun n hn => meets_braced (meets_element hu) hstart h hn
  exact .expect rfl fun _ _ => hbody.map fun _ _ => .pure trivial

theorem meets_structBody (hu : Understood T type) {brace : String}
    (h : Written.Braced (Written.Line T) v words) :
    (structBody type).Meets v (⟨.leftBrace, brace⟩ :: words) (fun _ => True) follow := by
  have hstart {v : Verdict} {words : List Word} (h : Written.Line T v words) :
      ∃ w rest, words = w :: rest ∧ w.kind ≠ .semicolon ∧ w.kind ≠ .rightBrace := by
    cases h with
    | named hnames h htag => cases hnames <;> exact ⟨_, _, rfl, by simp, by simp⟩
    | embedded h hembedded htag =>
      obtain ⟨w, rest, rfl, hw⟩ := hu.begins h
      exact ⟨w, _, rfl, by rintro hkind; simp [hkind, beginsType, startsResult] at hw,
        by rintro hkind; simp [hkind, beginsType, startsResult] at hw⟩
  have hbody : (Parser.bounded (braced (fields type))).Meets v words (fun _ => True) follow :=
    .bounded fun n hn => meets_braced (meets_line hu) hstart h hn
  exact .expect rfl fun _ _ => hbody.map fun _ _ => .pure trivial

/-- Every form of a type begins with a token that a type may begin with. -/
theorem begins_form (h : Written.Form scope T v words) :
    ∃ w rest, words = w :: rest ∧ beginsType w.kind = true := by
  cases h with
  | name h =>
    cases h with
    | plain h => cases h <;> exact ⟨_, _, rfl, rfl⟩
    | applied h => cases h <;> exact ⟨_, _, rfl, rfl⟩
  | _ => exact ⟨_, _, rfl, rfl⟩

/-- Of the forms of a type only names begin with one: the name is alone, or there is a dot behind it, or the
arguments of a generic type. -/
theorem names_form {name : String} {more : List Word}
    (hnested : ∀ v words, T v words → Nested (words.map Word.kind))
    (h : Written.Form scope T v (⟨.identifier, name⟩ :: more)) : more = [] ∧ v = .plain ∨
      leading more none = some .dot ∨ ∃ words opening closing, Nested (words.map Word.kind) ∧
        more = ⟨.leftBracket, opening⟩ :: (words ++ [⟨.rightBracket, closing⟩]) := by
  generalize hwords : (⟨.identifier, _⟩ :: _ : List Word) = words at h
  cases h with
  | name h =>
    cases h with
    | plain h =>
      cases h with
      | bare name => cases hwords; exact .inl ⟨rfl, rfl⟩
      | qualified hq dot name => cases hwords; exact .inr (.inl rfl)
    | @applied _ arguments h harguments opening closing =>
      cases h with
      | bare name =>
        cases hwords
        exact .inr (.inr ⟨arguments, opening, closing, harguments.nested hnested, rfl⟩)
      | qualified hq dot name => cases hwords; exact .inr (.inl rfl)
  | _ => cases hwords

/-- Each form of a type is read as its verdict says, if the types inside it are. -/
theorem meets_form {m : Nat} (hu : Understood T (typeWithin scope m)) (h : Written.Form scope T v words) :
    (typeWithin scope (m + 1)).Meets v words (fun _ => True) (endsWritten ·) := by
  have hwritten {v : Verdict} {words : List Word} (h : T v words) (make : GoType → GoType) :
      (typeWithin scope m >>= fun t => pure (make t)).Meets v words (fun _ => True)
        (endsWritten ·) := (hu.meets h).map fun _ _ => .pure trivial
  cases h with
  | name h =>
    -- the first name decides that a type name is read, whatever is behind it
    have hname : ∃ first rest, words = ⟨.identifier, first⟩ :: rest := by
      cases h with
      | plain h => cases h <;> exact ⟨_, _, rfl⟩
      | applied h => cases h <;> exact ⟨_, _, rfl⟩
    obtain ⟨first, rest, rfl⟩ := hname
    exact .peek fun _ _ => meets_name h
  | pointer star h => exact .peek fun _ _ => .skip (hwritten h .pointer)
  | slice opening closing h =>
    exact .peek fun _ _ => .skip (.accept_eq rfl (hwritten h .slice))
  | @array opening closing v length type' hlength h =>
    -- a length is not empty and begins with no closing bracket, and so this is no slice
    have hne : length ≠ [] := by
      rintro rfl
      exact hlength.text (by simp)
    refine .peek fun _ _ => .skip (.accept_ne (fun next _ => ?_) ?_)
    · exact hlength.nested.leading_ne hne _ next
    · rw [List.append_cons]
      exact (meets_arrayLength hlength closing).bind (fun _ _ => trivial) fun text _ =>
        hwritten h (.array text)
  | map kw opening closing h h' =>
    refine .peek fun _ _ => .skip (.expect rfl fun _ _ => ?_)
    refine (hu.meets h).bind (fun _ _ => rfl) fun key _ => ?_
    exact .expect rfl fun _ _ => hwritten h' (.map key)
  | chan kw h harrow =>
    refine .peek fun _ _ => .skip (.accept_ne (fun next _ => ?_) (hwritten h (.chan .both)))
    obtain ⟨w, rest, rfl, -⟩ := hu.begins h
    exact harrow
  | send kw arrow h => exact .peek fun _ _ => .skip (.accept_eq rfl (hwritten h (.chan .send)))
  | receive arrow kw h =>
    exact .peek fun _ _ => .skip (.expect rfl fun _ _ => hwritten h (.chan .receive))
  | func kw h =>
    exact .peek fun _ _ => .skip ((meets_signature hu h).map fun _ _ => .pure trivial)
  | interface kw brace h =>
    exact .peek fun _ _ => .skip ((meets_interfaceBody hu h).map fun _ _ => .pure trivial)
  | struct kw brace h =>
    exact .peek fun _ _ => .skip ((meets_structBody hu h).map fun _ _ => .pure trivial)
  | parens opening closing h =>
    refine .peek fun _ _ => .skip ?_
    rw [← Verdict.andThen_plain v]
    refine (hu.meets h).bind (fun _ _ => rfl) fun inner _ => ?_
    exact .expect rfl fun _ _ => .pure trivial

/-- **One level of a type** is understood if the types inside it are. -/
theorem understood_form {m : Nat} (hu : Understood T (typeWithin scope m))
    (hnested : ∀ v words, T v words → Nested (words.map Word.kind)) :
    Understood (Written.Form scope T) (typeWithin scope (m + 1)) where
  meets h := meets_form hu h
  refuses opening closing h := meets_lone_length (m + 1) h opening closing
  begins h := begins_form h
  names h := names_form hnested h

/-- Types of a nesting are understood by a reader with a larger budget. -/
theorem understood_typeWithin {n m : Nat} (h : n ≤ m) :
    Understood (Written.TypeWithin scope n) (typeWithin scope m) := by
  induction n generalizing m with
  | zero =>
    exact ⟨fun h => False.elim h, fun opening closing h => meets_lone_length m h opening closing,
      fun h => False.elim h, fun h => False.elim h⟩
  | succ n ih =>
    obtain ⟨m, rfl⟩ := Nat.exists_eq_succ_of_ne_zero (Nat.ne_zero_of_lt h)
    exact understood_form (ih (Nat.le_of_succ_le_succ h)) fun v words => Written.TypeWithin.nested

/-- What is read of tokens does not depend on the budget if it exceeds their number. -/
theorem describes_typeWithin {tokens rest : List Token} {m m' : Nat} (hm : tokens.length < m)
    (hm' : tokens.length < m')
    (h : v.Describes (fun _ => True) rest (typeWithin scope m tokens)) :
    v.Describes (fun _ => True) rest (typeWithin scope m' tokens) := by
  have hechoes (n : Nat) : EchoesAt (nextKind tokens) false (fun m => m) 0 0 (typeWithin scope n)
      fun m => typeWithin scope m := echoes_typeWithin n false 0 _
  have hreads {n n' : Nat} (hn' : tokens.length < n') {parsed : Parsed GoType}
      (hok : typeWithin scope n tokens = .ok parsed) : typeWithin scope n' tokens = .ok parsed := by
    obtain ⟨front, hsplit, -, -, hagain⟩ := (hechoes n).reads rfl hok
    rw [hsplit, List.length_append] at hn'
    rw [hsplit]
    exact hagain n' (by omega) _ rfl
  have hfails {n n' : Nat} (hn' : tokens.length < n') {e : Failure}
      (herror : typeWithin scope n tokens = .error e) (hcause : e.cause.isUnsupported = true) :
      typeWithin scope n' tokens = .error e := by
    obtain ⟨front, behind, hsplit, -, -, -, hagain⟩ := (hechoes n).fails rfl herror hcause
    rw [hsplit, List.length_append] at hn'
    rw [hsplit]
    exact hagain n' (by omega) behind
  cases v with
  | plain =>
    obtain ⟨value, references, hok, -⟩ := h
    exact ⟨value, references, hreads hm' hok, trivial⟩
  | seen =>
    obtain ⟨e, herror, hcause⟩ := h
    exact ⟨e, hfails hm' herror hcause, hcause⟩
  | missed =>
    -- with the other budget nothing else can come of it, or it would with this one
    obtain ⟨e, herror, hcause⟩ := h
    cases hresult : typeWithin scope m' tokens with
    | ok parsed =>
      rw [hreads hm hresult] at herror
      cases herror
    | error e' =>
      refine ⟨e', rfl, ?_⟩
      by_contra hunsupported
      rw [hfails hm hresult (by simpa using hunsupported)] at herror
      cases herror
      exact hunsupported hcause

/-- **A written type is read as its verdict says.** -/
theorem meets_typeExpr (h : Written.IsType scope v words) :
    (typeExpr scope).Meets v words (fun _ => True) (endsWritten ·) := by
  obtain ⟨n, h⟩ := h
  intro tokens rest htokens hrest
  have hlength := Nat.lt_succ_self (tokens ++ rest).length
  have hall := (understood_typeWithin (Nat.le_max_left n ((tokens ++ rest).length + 1))).meets h tokens
    rest htokens hrest
  exact describes_typeWithin (Nat.lt_of_lt_of_le hlength (Nat.le_max_right _ _)) hlength hall

theorem meets_typeDefinition (h : Written.Definition scope v words) :
    (typeDefinition scope).Meets v words (fun _ => True) (endsWritten ·) := by
  cases h with
  | type h =>
    refine .accept_ne (fun next _ => ?_) ((meets_typeExpr h).map fun _ _ => .pure trivial)
    obtain ⟨n, h⟩ := h
    exact (understood_typeWithin le_rfl).leading_ne h rfl next
  | another assign h => exact .accept_eq rfl ((meets_typeExpr h).map fun _ _ => .pure trivial)

end

end Multicast.Syntax
