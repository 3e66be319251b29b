import Multicast.Proofs.FileReads

/-!
# Delimiters of types are closed

A method is not read but skipped, and it ends where no delimiter is open. So what stands in it has to
close what it opens, the types of its parameters in particular. They do, whatever they are: the only
text in a type that is taken over as it was written is the length of an array, and it has to be a
token other than a delimiter (`GoType.balanced_pieces`).

## Depths

`nest` counts the delimiters that are open behind some words, and has no value where one is closed that is
not open, or where a declaration ends. `Balanced` asks for the same depth behind the words as in front of
them, at any depth but the outermost one: there a semicolon would end the declaration, and a struct has
semicolons between its braces only.

Everything that is written for a type is in brackets, parentheses or braces, or is a name, a literal or a
separator. So the lemmas follow the ways in which pieces are put together, one for each.
-/

namespace Multicast

open Source Syntax

/-! ### Kinds with their delimiters closed -/

/-- **All delimiters are closed** among words of these kinds, and none is closed that they do not
open. Semicolons do not matter between open delimiters. -/
def Balanced (ks : List Kind) : Prop :=
  ∀ depth, nest (depth + 1) ks = some (depth + 1)

/-- Whether a word of a kind neither opens nor closes anything. -/
def Source.Kind.isPlain (k : Kind) : Bool :=
  !k.isOpening && !k.isClosing

theorem balanced_nil : Balanced [] :=
  fun _ => rfl

/-- What is closed before and behind is closed in the whole. -/
theorem Balanced.append {ks ks' : List Kind} (h : Balanced ks) (h' : Balanced ks') :
    Balanced (ks ++ ks') := by
  intro depth
  rw [nest_append, h depth]
  exact h' depth

/-- A token that is no delimiter changes nothing. -/
theorem balanced_cons {k : Kind} {ks : List Kind} (hk : k.isPlain = true) :
    Balanced (k :: ks) ↔ Balanced ks := by
  obtain ⟨hopens, hcloses⟩ : k.isOpening = false ∧ k.isClosing = false := by
    simpa [Kind.isPlain] using hk
  simp [Balanced, nest, hopens, hcloses]

/-- One more delimiter around the words stays open. -/
theorem nest_succ {depth behind : Nat} {ks : List Kind} (h : nest depth ks = some behind) :
    nest (depth + 1) ks = some (behind + 1) := by
  induction ks generalizing depth with
  | nil => cases depth <;> cases h <;> rfl
  | cons k ks ih =>
    cases depth with
    | zero =>
      rw [nest] at h
      rw [nest.eq_def]
      split at h
      next => cases h
      next hends =>
        dsimp only
        rw [if_neg fun hcloses => hends (.inr hcloses)]
        split
        next hopens => exact ih (by rwa [if_pos hopens] at h)
        next hopens => exact ih (by rwa [if_neg hopens] at h)
    | succ depth =>
      rw [nest] at h
      rw [nest.eq_def]
      dsimp only
      split
      next hopens => exact ih (by rwa [if_pos hopens] at h)
      next hopens =>
        rw [if_neg hopens] at h
        split
        next hcloses =>
          rw [if_pos hcloses] at h
          exact ih h
        next hcloses =>
          rw [if_neg hcloses] at h
          exact ih h

/-- It is enough that all delimiters are closed behind one that is open. -/
theorem balanced_of_nest {ks : List Kind} (h : nest 1 ks = some 1) : Balanced ks := by
  intro depth
  induction depth with
  | zero => exact h
  | succ depth ih => exact nest_succ ih

/-- What stands between delimiters. -/
theorem Balanced.enclosed {ks : List Kind} (h : Balanced ks) {first last : Kind}
    (hfirst : first.isOpening = true) (hlast : last.isOpening = false ∧ last.isClosing = true) :
    Balanced (first :: (ks ++ [last])) := by
  intro depth
  rw [nest, if_pos hfirst, nest_append, h (depth + 1)]
  simp [nest, hlast]

/-- At the front of a declaration too, what stands between delimiters is skipped. -/
theorem Balanced.nest_zero {ks : List Kind} (h : Balanced ks) {first last : Kind}
    (hfirst : first ≠ .semicolon ∧ first.isOpening = true ∧ first.isClosing = false)
    (hlast : last.isOpening = false ∧ last.isClosing = true) :
    nest 0 (first :: (ks ++ [last])) = some 0 := by
  rw [nest, if_neg (by simp [hfirst]), if_pos hfirst.2.1, nest_append, h 0]
  simp [nest, hlast]

/-! ### The kinds of pieces -/

/-- The kinds of the lexemes among pieces. -/
def kindsOf (ps : List Piece) : List Kind :=
  (lexemes ps).map Word.kind

@[simp] theorem kindsOf_nil : kindsOf [] = [] := rfl

@[simp] theorem kindsOf_lexeme (kind : Kind) (t : List Char) (ps : List Piece) :
    kindsOf (.lexeme kind t :: ps) = kind :: kindsOf ps := rfl

@[simp] theorem kindsOf_blank (c : Char) (ps : List Piece) :
    kindsOf (.blank c :: ps) = kindsOf ps := rfl

@[simp] theorem kindsOf_append (ps qs : List Piece) :
    kindsOf (ps ++ qs) = kindsOf ps ++ kindsOf qs := by
  simp [kindsOf]

section

variable {pss : List (List Piece)} {ps : List Piece}

/-- Joined pieces are closed if each part is, and the separator. -/
theorem balanced_joined {separator : List Piece} (hseparator : Balanced (kindsOf separator))
    (h : ∀ ps ∈ pss, Balanced (kindsOf ps)) : Balanced (kindsOf (joined separator pss)) := by
  induction pss with
  | nil => exact balanced_nil
  | cons ps pss ih =>
    obtain ⟨hps, hpss⟩ := List.forall_mem_cons.1 h
    cases pss with
    | nil => simpa [joined] using hps
    | cons qs pss =>
      have hall := hps.append (hseparator.append (ih hpss))
      simpa [joined, List.intercalate_cons_cons] using hall

/-- A list has parentheses around it. -/
theorem kindsOf_list (pss : List (List Piece)) :
    kindsOf (listPieces pss) =
      .leftParen :: (kindsOf (joined [.comma, .space] pss) ++ [.rightParen]) := by
  simp [listPieces]

/-- A body has braces around it. -/
theorem kindsOf_body (pss : List (List Piece)) :
    kindsOf (bodyPieces pss) =
      .leftBrace :: (kindsOf (joined [.semicolon, .space] pss) ++ [.rightBrace]) := by
  simp [bodyPieces]

/-- What stands between the parentheses of a list. -/
theorem balanced_listed (h : ∀ ps ∈ pss, Balanced (kindsOf ps)) :
    Balanced (kindsOf (joined [.comma, .space] pss)) := by
  refine balanced_joined ?_ h
  exact (balanced_cons rfl).2 balanced_nil

/-- A list is closed if its entries are. -/
theorem balanced_list (h : ∀ ps ∈ pss, Balanced (kindsOf ps)) :
    Balanced (kindsOf (listPieces pss)) := by
  rw [kindsOf_list]
  exact (balanced_listed h).enclosed rfl ⟨rfl, rfl⟩

/-- A body is closed if its items are. -/
theorem balanced_body (h : ∀ ps ∈ pss, Balanced (kindsOf ps)) :
    Balanced (kindsOf (bodyPieces pss)) := by
  have hseparator : Balanced (kindsOf [.semicolon, .space]) := (balanced_cons rfl).2 balanced_nil
  rw [kindsOf_body]
  exact (balanced_joined hseparator h).enclosed rfl ⟨rfl, rfl⟩

theorem balanced_param (name : String) (h : Balanced (kindsOf ps)) :
    Balanced (kindsOf (paramPieces name ps)) := by
  unfold paramPieces
  split
  · exact h
  · exact (balanced_cons rfl).2 h

theorem balanced_field (name tag : Option String) (h : Balanced (kindsOf ps)) :
    Balanced (kindsOf (fieldPieces name ps tag)) := by
  have htag : Balanced (kindsOf (tag.elim [] fun t => [.space, .lexeme .string t.toList])) := by
    cases tag with
    | none => exact balanced_nil
    | some t => exact (balanced_cons rfl).2 balanced_nil
  have hname : Balanced (kindsOf (name.elim [] fun n => [.name n, .space])) := by
    cases name with
    | none => exact balanced_nil
    | some n => exact (balanced_cons rfl).2 balanced_nil
  simpa [fieldPieces] using (hname.append h).append htag

/-- A channel is closed if its element type is. The parentheses that it may need come in pairs. -/
theorem balanced_chan (direction : Direction) (nested : Bool) (h : Balanced (kindsOf ps)) :
    Balanced (kindsOf (chanPieces direction nested ps)) := by
  cases direction with
  | both =>
    cases nested with
    | false => exact (balanced_cons rfl).2 h
    | true =>
      have hparens : Balanced (.leftParen :: (kindsOf ps ++ [.rightParen])) :=
        h.enclosed rfl ⟨rfl, rfl⟩
      simpa [chanPieces] using (balanced_cons (k := .keyword .chanKw) rfl).2 hparens
  | send | receive => exact (balanced_cons rfl).2 ((balanced_cons rfl).2 h)

end

/-! ### Types -/

section

variable {qualifier : PackageId → String}

/-- A parameter, with or without three dots. -/
theorem HookedParam.balanced_pieces {p : HookedParam}
    (h : Balanced (kindsOf (p.type.pieces qualifier))) :
    Balanced (kindsOf (p.pieces qualifier)) := by
  obtain ⟨name, type, tail⟩ := p
  refine balanced_param name ?_
  cases tail with
  | false => cases type <;> exact h
  | true =>
    cases type with
    | slice elem =>
      -- three dots stand in place of the brackets of the slice
      have helem : Balanced (kindsOf (elem.pieces qualifier)) := fun depth => h depth
      exact (balanced_cons rfl).2 helem
    | _ => exact h

/-- A signature is closed if the types in it are. -/
theorem Signature.balanced_pieces {s : Signature}
    (h : ∀ t ∈ s.types, Balanced (kindsOf (t.pieces qualifier))) :
    Balanced (kindsOf (s.pieces qualifier)) := by
  have hparams : ∀ ps ∈ (hookedParams s.variadic s.params).map (HookedParam.pieces qualifier),
      Balanced (kindsOf ps) := by
    intro ps hps
    obtain ⟨p, hp, rfl⟩ := List.mem_map.1 hps
    exact HookedParam.balanced_pieces
      (h _ (Signature.mem_types.2 (.inl ⟨_, (mem_of_hookedParams hp).1, rfl⟩)))
  have hresults : ∀ ps ∈ s.results.map fun p => paramPieces p.name (p.type.pieces qualifier),
      Balanced (kindsOf ps) := by
    intro ps hps
    obtain ⟨p, hp, rfl⟩ := List.mem_map.1 hps
    exact balanced_param p.name (h _ (Signature.mem_types.2 (.inr ⟨p, hp, rfl⟩)))
  rw [Signature.pieces_eq, kindsOf_append]
  refine (balanced_list hparams).append ?_
  unfold resultPieces
  split
  next type qs _ heq => exact hresults qs (by simp [heq])
  next => exact balanced_nil
  next => exact balanced_list hresults

/-- **The delimiters of a type are closed**, unless the length of an array in it is one. -/
theorem GoType.balanced_pieces {t : GoType}
    (hlengths : ∀ n elem, t.Has (.array n elem) → (kindOf n).isPlain = true) :
    Balanced (kindsOf (t.pieces qualifier)) := by
  induction t using componentInduction with
  | h t ih =>
    have hparts : ∀ s ∈ t.components, Balanced (kindsOf (s.pieces qualifier)) := fun s hs =>
      ih s hs fun n elem hhas => hlengths n elem (.inside hs hhas)
    have hbrackets {ks : List Kind} (h : Balanced ks) :
        Balanced (.leftBracket :: (ks ++ [.rightBracket])) := h.enclosed rfl ⟨rfl, rfl⟩
    cases t with
    | basic name => exact (balanced_cons rfl).2 balanced_nil
    | named package name =>
      rw [pieces]
      unfold qualifiedPieces
      split
      · exact (balanced_cons rfl).2 balanced_nil
      · exact (balanced_cons rfl).2 ((balanced_cons rfl).2 ((balanced_cons rfl).2 balanced_nil))
    | pointer elem => exact (balanced_cons rfl).2 (hparts elem (List.mem_singleton_self _))
    | slice elem => exact (hbrackets balanced_nil).append (hparts elem (List.mem_singleton_self _))
    | array n elem =>
      have hlength : Balanced [kindOf n] := (balanced_cons (hlengths n elem (.self _))).2 balanced_nil
      exact (hbrackets hlength).append (hparts elem (List.mem_singleton_self _))
    | map key value =>
      have hkey := hbrackets (hparts key (by simp [components]))
      have hall := hkey.append (hparts value (by simp [components]))
      simpa [pieces] using (balanced_cons (k := .keyword .mapKw) rfl).2 hall
    | chan direction elem => exact balanced_chan _ _ (hparts elem (List.mem_singleton_self _))
    | func signature => exact (balanced_cons rfl).2 (Signature.balanced_pieces hparts)
    | interface body =>
      obtain ⟨methods, embeds⟩ := body
      refine (balanced_cons rfl).2 (balanced_body fun qs hqs => ?_)
      rw [Method.piecesAll_eq, GoType.piecesAll_eq] at hqs
      rcases List.mem_append.1 hqs with hqs | hqs
      · obtain ⟨m, hm, rfl⟩ := List.mem_map.1 hqs
        refine (balanced_cons rfl).2 (Signature.balanced_pieces fun s hs => hparts s ?_)
        exact List.mem_append_left _ (List.mem_flatMap.2 ⟨m, hm, hs⟩)
      · obtain ⟨s, hs, rfl⟩ := List.mem_map.1 hqs
        exact hparts s (List.mem_append_right _ hs)
    | struct fields =>
      refine (balanced_cons rfl).2 (balanced_body fun qs hqs => ?_)
      rw [Field.piecesAll_eq] at hqs
      obtain ⟨f, hf, rfl⟩ := List.mem_map.1 hqs
      exact balanced_field _ _ (hparts f.type (List.mem_map_of_mem hf))

end

end Multicast
