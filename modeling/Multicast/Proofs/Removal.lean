import Multicast.Proofs.HeaderAgain
import Multicast.Proofs.Hooked
import Multicast.Proofs.Wordwise

/-!
# A type that cannot be described leaves no trace

The declaration of a type that cannot be described is skipped, and nothing else of it is kept than its
name. So a file without it is read to the same effect: the tokens of its spec (`Declaration.IsSpec`)
can be taken out (`contents_eraseIdx`).

The types in front of it that cannot be described have to keep their delimiters in step. Where they do
not, an attempt to read one of them may go on into the specs behind it, since the length of an array is
read up to its bracket whatever braces stand in it.

## One round less

The spec is read in a round of its own, and nothing else comes of that round than an object without a
type. The rounds in front of it are made again, as they are read for good, and those behind it stand in
front of the same tokens. So without the round the declarations are the others, in their order. In a group
the keyword stays, and where the keyword goes with the spec, the semicolon behind it is left in a place
where semicolons may stand.
-/

namespace Multicast.Syntax

open Source Multicast.Syntax.Parser

/-- **The tokens of a type spec**, with others behind it: `type`, unless it stands in a group, the name,
what stands behind the name, and the semicolon that ends it, if there is one. -/
def Declaration.IsSpec (d : Declaration) (spec behind : List Token) : Prop :=
  ∃ opening declared body ending, spec = opening ++ declared :: (body ++ ending) ∧
    d.IsMade declared body ∧ opening.map Token.kind ∈ [[], [.keyword .typeKw]] ∧
      ((ending.map Token.kind = [.semicolon]) ∨
        (ending = [] ∧ ∀ kind ∈ nextKind behind, kind.isClosing = true))

section

variable {scope : Scope} {s : Stage} {tokens : List Token} {parsed : Parsed (List Declaration)}

/-- Behind a spec the file is read as from a place for types, once the spec is ended. -/
theorem exists_ending {grouped : Bool} (h : reading scope (.behind grouped) tokens = .ok parsed) :
    ∃ ending behind, tokens = ending ++ behind ∧
      ((ending.map Token.kind = [.semicolon]) ∨
        (ending = [] ∧ ∀ kind ∈ nextKind behind, kind.isClosing = true)) ∧
      reading scope (if grouped then .group else .file) behind = .ok parsed := by
  have hnone (more : Parsed (List Declaration)) : more.behind [] [] = more := by
    simp [Parsed.behind]
  rcases reading_eq_ok_iff.1 h with ⟨rfl, hend, rfl⟩ | ⟨first, more, hfirst, hmore, rfl⟩
  · cases grouped with
    | true => cases hend
    | false => exact ⟨[], [], rfl, .inr ⟨rfl, by simp [nextKind]⟩, reading_nil rfl⟩
  · cases tokens with
    | nil => cases hfirst
    | cons t rest =>
      rcases round_behind_eq_ok hfirst with ⟨ht, rfl⟩ | ⟨ht, rfl, rfl⟩
      · exact ⟨[t], rest, rfl, .inl (by simp [ht]), by rwa [hnone]⟩
      · -- the parenthesis stays, and closes the group all the same
        have hnext : nextKind (t :: rest) = some .rightParen := congrArg some ht
        refine ⟨[], t :: rest, rfl, .inr ⟨rfl, by simp [hnext, Kind.isClosing]⟩, ?_⟩
        refine reading_eq_ok_iff.2 (.inr ⟨_, more, ?_, hmore, rfl⟩)
        rw [round_of_nextKind _ hnext]
        rfl

/-- **A type that cannot be described leaves no trace** among declarations. -/
theorem reading_eraseIdx {i : Nat} {d : Declaration} {reason : String}
    (h : reading scope s tokens = .ok parsed) (hd : parsed.value[i]? = some d)
    (hkind : d.object.kind = .unsupported reason)
    (hmatched : ∀ e ∈ parsed.value.take i, e.Matched tokens) :
    ∃ before spec behind, tokens = before ++ (spec ++ behind) ∧ d.IsSpec spec behind ∧
      reading scope s (before ++ behind) = .ok { parsed with value := parsed.value.eraseIdx i } := by
  obtain ⟨hi, -⟩ := List.getElem?_eq_some_iff.1 hd
  obtain ⟨ds, references, s', rest, first, more, hreaches, hround, hmore, rfl, hle, hlt⟩ :=
    exists_reaches_of_lt h hi
  have hmem : d ∈ first.value.1 := by
    simp only [Parsed.behind] at hd
    rw [List.getElem?_append_right hle, List.getElem?_append_left (by omega)] at hd
    exact List.mem_of_getElem? hd
  obtain ⟨opening, declared, body, hsplit, hmade, hreferences, hstage⟩ :=
    round_of_unsupported hround hmem hkind
  obtain ⟨grouped, hs', hopening, hvalue⟩ : ∃ grouped : Bool, s' = (if grouped then .group else .file) ∧
      opening.map Token.kind ∈ [[], [.keyword .typeKw]] ∧ first.value = ([d], .behind grouped) := by
    rcases hstage with ⟨rfl, hopening, hvalue⟩ | ⟨rfl, rfl, hvalue⟩
    · exact ⟨false, rfl, by simp [hopening], hvalue⟩
    · exact ⟨true, rfl, by simp, hvalue⟩
  obtain rfl : i = ds.length := by
    rw [hvalue, List.length_singleton] at hlt
    omega
  obtain ⟨before, rfl, -, hagain⟩ := hreaches.again (by rw [hs']; cases grouped <;> rfl) fun e he =>
    hmatched e (by simpa [Parsed.behind] using he)
  rw [hvalue] at hmore
  obtain ⟨ending, behind, hrest, hending, hread⟩ := exists_ending hmore
  refine ⟨before, opening ++ declared :: (body ++ ending), behind, ?_,
    ⟨opening, declared, body, ending, rfl, hmade, hopening, hending⟩, ?_⟩
  · rw [hsplit, hrest]
    simp
  · rw [(hagain behind).reading_eq, hs', hread]
    simp [Except.map, Parsed.behind, hvalue, hreferences, List.eraseIdx_append_of_length_le]

end

/-- **A type that cannot be described leaves no trace in a file.** -/
theorem contents_eraseIdx {path : String} {tokens : List Token} {parsed : Parsed Contents} {i : Nat}
    {d : Declaration} {reason : String} (h : contents path tokens = .ok parsed)
    (hd : parsed.value.declarations[i]? = some d) (hkind : d.object.kind = .unsupported reason)
    (hmatched : ∀ e ∈ parsed.value.declarations.take i, e.Matched tokens) :
    ∃ before spec behind, tokens = before ++ (spec ++ behind) ∧ d.IsSpec spec behind ∧
      contents path (before ++ behind) = .ok { parsed with
        value := { parsed.value with declarations := parsed.value.declarations.eraseIdx i } } := by
  rw [contents_eq] at h ⊢
  obtain ⟨top, _, htop, hbelow, rfl⟩ := bind_eq_ok.1 h
  obtain ⟨read, hread, rfl⟩ := bind_pure_eq_ok.1 hbelow
  obtain ⟨-, header, rfl, hagain⟩ := header_again htop
  obtain ⟨before, spec, behind, hsplit, hspec, hrest⟩ := reading_eraseIdx hread hd hkind fun e he =>
    (hmatched e he).of_suffix (List.suffix_append _ _)
  refine ⟨header ++ before, spec, behind, by simp [hsplit], hspec, ?_⟩
  rw [List.append_assoc]
  refine bind_eq_ok.2 ⟨_, _, hagain _ ?_ ?_, bind_pure_eq_ok.2 ⟨_, hrest, rfl⟩, rfl⟩
  · exact nextKind_of_reading hrest
  · intro hnil
    obtain ⟨_, _, _, _, rfl, -⟩ := hspec
    simp [hnil] at hsplit

/-- Declarations of the same objects. -/
theorem objects_eq {ds ds' : List Declaration} (h : List.Forall₂ Declaration.Same ds ds') :
    ds.map Declaration.object = ds'.map Declaration.object := by
  rw [← List.forall₂_eq_eq_eq, List.forall₂_map_left_iff, List.forall₂_map_right_iff]
  exact h

/-- **A type that cannot be described leaves no trace in a text.** Its spec can be taken out of the
tokens, and then the file reads as before but for this declaration, wherever the tokens that are left
stand. -/
theorem parseFile_eraseIdx {file text path : String} {ts : Tokens} {f : File} {i : Nat}
    {d : Declaration} {reason : String} (hts : tokenize text = .ok ts)
    (h : parseFile file text path = .ok f) (hd : f.declarations[i]? = some d)
    (hkind : d.object.kind = .unsupported reason)
    (hmatched : ∀ e ∈ f.declarations.take i, e.Matched ts.list) :
    ∃ before spec behind, ts.list = before ++ (spec ++ behind) ∧ d.IsSpec spec behind ∧
      (∃ rest, contents path (before ++ behind) =
        .ok ⟨⟨f.package, f.imports, f.declarations.eraseIdx i⟩, f.references, rest⟩) ∧
      ∀ file' text' ts', tokenize text' = .ok ts' → SameWords ts'.list (before ++ behind) →
        ∃ f', parseFile file' text' path = .ok f' ∧ f'.package = f.package ∧ f'.imports = f.imports ∧
          f'.declarations.map Declaration.object =
            (f.declarations.eraseIdx i).map Declaration.object ∧
          f'.references.map Reference.name = f.references.map Reference.name := by
  obtain ⟨_, c, references, rest, hts', hread, rfl⟩ := parseFile_eq_ok.1 h
  obtain rfl : _ = ts := Except.ok.inj (hts'.symm.trans hts)
  obtain ⟨before, spec, behind, hsplit, hspec, hwithout⟩ := contents_eraseIdx hread hd hkind hmatched
  refine ⟨before, spec, behind, hsplit, hspec, ⟨rest, hwithout⟩, fun file' text' ts' hts' hsame => ?_⟩
  have halike := alike_contents path ts'.list _ hsame
  rw [hwithout] at halike
  generalize hresult : contents path ts'.list = result at halike
  obtain ⟨hvalue, hreferences, -⟩ | _ := halike
  exact ⟨_, parseFile_eq_ok.2 ⟨ts', _, _, _, hts', hresult, rfl⟩, hvalue.package, hvalue.imports,
    objects_eq hvalue.declarations, hreferences⟩

/-- Two types that cannot be described, the second of them in a group. -/
def cupsText : String :=
  "package cups\n\ntype Box[T any] struct\x7b\x7d\n\ntype (\n\tCup func(box Box[int])\n\tMug chan Cup\n)\n"

theorem parseFile_eraseIdx_cup : ∃ ts f d reason, tokenize cupsText = .ok ts ∧
    parseFile "cups.go" cupsText "example.com/cups" = .ok f ∧ f.declarations[1]? = some d ∧
    d.object = ⟨"Cup", .unsupported reason⟩ ∧ (∀ e ∈ f.declarations.take 1, e.Matched ts.list) ∧
    ∃ before spec behind, ts.list = before ++ (spec ++ behind) ∧ d.IsSpec spec behind ∧
      (∃ rest, contents "example.com/cups" (before ++ behind) =
        .ok ⟨⟨f.package, f.imports, f.declarations.eraseIdx 1⟩, f.references, rest⟩) ∧
      ∀ file' text' ts', tokenize text' = .ok ts' → SameWords ts'.list (before ++ behind) →
        ∃ f', parseFile file' text' "example.com/cups" = .ok f' ∧ f'.package = f.package ∧
          f'.imports = f.imports ∧ f'.declarations.map Declaration.object =
            (f.declarations.eraseIdx 1).map Declaration.object ∧
          f'.references.map Reference.name = f.references.map Reference.name := by
  have hchars : tokenize cupsText = _ := tokenize_ofList _
  have hcheck : (tokenize cupsText).toOption.any (fun ts =>
      (contents "example.com/cups" ts.list).toOption.any fun parsed =>
        parsed.value.declarations[1]?.any (fun d => d.object.name = "Cup" ∧
          ∃ reason, d.object.kind = .unsupported reason) &&
        (parsed.value.declarations.take 1).all fun e => e.Matched ts.list) = true := by
    rw [hchars]
    decide +kernel
  obtain ⟨ts, hts, hcheck⟩ := exists_ok_of_any hcheck
  obtain ⟨⟨c, references, rest⟩, hread, hcheck⟩ := exists_ok_of_any hcheck
  simp only [Bool.and_eq_true, Option.any_eq_true, decide_eq_true_eq, List.all_eq_true] at hcheck
  obtain ⟨⟨d, hd, hname, reason, hkind⟩, hmatched⟩ := hcheck
  have hfile : parseFile "cups.go" cupsText "example.com/cups" = .ok _ :=
    parseFile_eq_ok.2 ⟨ts, _, _, _, hts, hread, rfl⟩
  obtain ⟨⟨_, _⟩, pos⟩ := d
  obtain rfl : _ = "Cup" := hname
  obtain rfl : _ = ObjectKind.unsupported reason := hkind
  exact ⟨ts, _, _, reason, hts, hfile, hd, rfl, hmatched,
    parseFile_eraseIdx hts hfile hd rfl hmatched⟩

/-- Two types that cannot be described. The attempt to read the first goes on into the second, where the
length of the array ends. -/
def spillText : String :=
  "package spill\n\ntype (\n\tX [\x7d ; Y = U[\x7b]]T[int]\n)\n"

/-- The same text without the second of the types. -/
def spillRest : String :=
  "package spill\n\ntype (\n\tX [\x7d ;\n)\n"

/-- Where the delimiters of a type do not keep in step, a type behind it can be missed. -/
theorem not_eraseIdx_spill : ∃ ts f d reason before spec behind, tokenize spillText = .ok ts ∧
    parseFile "spill.go" spillText "example.com/spill" = .ok f ∧ f.declarations[1]? = some d ∧
    d.object = ⟨"Y", .unsupported reason⟩ ∧ ts.list = before ++ (spec ++ behind) ∧
    d.IsSpec spec behind ∧ (∃ e, contents "example.com/spill" (before ++ behind) = .error e) ∧
    (∃ ts', tokenize spillRest = .ok ts' ∧ SameWords ts'.list (before ++ behind)) ∧
    ∃ e, parseFile "spill.go" spillRest "example.com/spill" = .error e := by
  have hchars : tokenize spillText = _ := tokenize_ofList _
  have hother : tokenize spillRest = _ := tokenize_ofList _
  have hcheck : (tokenize spillText).toOption.any (fun ts =>
      (contents "example.com/spill" ts.list).toOption.any fun parsed =>
        ts.list[9]?.any fun declared => parsed.value.declarations[1]?.any fun d =>
          (d.object.name = "Y" ∧ ∃ reason, d.object.kind = .unsupported reason) ∧
          ((declared.kind = .identifier ∧ declared.text = d.object.name) ∧ declared.pos = d.pos) ∧
          nest 0 (((ts.list.drop 10).take 10).map Token.kind) = some 0 ∧
          ((ts.list.drop 20).take 1).map Token.kind = [.semicolon] ∧
          ts.list = ts.list.take 9 ++ (declared :: ((ts.list.drop 10).take 10 ++
            (ts.list.drop 20).take 1) ++ ts.list.drop 21) ∧
          (contents "example.com/spill" (ts.list.take 9 ++ ts.list.drop 21)).toOption.isNone ∧
          (tokenize spillRest).toOption.any fun ts' =>
            SameWords ts'.list (ts.list.take 9 ++ ts.list.drop 21)) = true := by
    rw [hchars, hother]
    decide +kernel
  have hrest : (parseFile "spill.go" spillRest "example.com/spill").toOption.isNone = true := by
    rw [toOption_parseFile, spillRest, String.toList_ofList]
    decide +kernel
  obtain ⟨ts, hts, hcheck⟩ := exists_ok_of_any hcheck
  obtain ⟨⟨c, references, rest⟩, hread, hcheck⟩ := exists_ok_of_any hcheck
  obtain ⟨declared, -, hcheck⟩ := (Option.any_eq_true _ _).1 hcheck
  obtain ⟨d, hd, hcheck⟩ := (Option.any_eq_true _ _).1 hcheck
  obtain ⟨⟨hname, reason, hkind⟩, ⟨hdeclared, hpos⟩, hnest, hending, hsplit, hfail, hsame⟩ :=
    of_decide_eq_true hcheck
  obtain ⟨ts', hts', hsame⟩ := exists_ok_of_any hsame
  have hfile : parseFile "spill.go" spillText "example.com/spill" = .ok _ :=
    parseFile_eq_ok.2 ⟨ts, _, _, _, hts, hread, rfl⟩
  have hobject : d.object = ⟨"Y", .unsupported reason⟩ := by
    rw [← hname, ← hkind]
  exact ⟨ts, _, d, reason, _, _, _, hts, hfile, hd, hobject, hsplit,
    ⟨[], declared, _, _, rfl, ⟨hdeclared, hpos, hnest⟩, by simp, .inl hending⟩, exists_error_of_isNone hfail,
    ⟨ts', hts', of_decide_eq_true hsame⟩, exists_error_of_isNone hrest⟩

end Multicast.Syntax
