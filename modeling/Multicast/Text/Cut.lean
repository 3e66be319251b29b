import Multicast.Text.Blank

/-!
# Cutting a text apart

Lines, words and path elements are all found in the same way: the text is cut at every character
of some class, and the characters it is cut at are dropped. `cutAt` does this and keeps empty
stretches; the callers drop them where they carry no meaning.
-/

namespace Multicast.Text

/-- The stretches between the characters that satisfy `cut`. There is always one more stretch
than there are such characters. -/
def cutAt (cut : Char → Bool) : List Char → List (List Char)
  | [] => [[]]
  | c :: cs =>
    if cut c then [] :: cutAt cut cs
    else match cutAt cut cs with
      | [] => [[c]]
      | first :: others => (c :: first) :: others

/-- The lines of a text, without their newlines. -/
def lines (text : List Char) : List (List Char) :=
  cutAt (· == '\n') text

/-- The words of a text: its longest stretches without a blank. -/
def words (text : List Char) : List (List Char) :=
  (cutAt isBlank text).filter (!·.isEmpty)

/-- Drops the characters of a class from both ends of a text. -/
def strip (outer : Char → Bool) (text : List Char) : List Char :=
  ((text.dropWhile outer).reverse.dropWhile outer).reverse

/-- Drops the blanks from both ends of a text. -/
def trim (text : List Char) : List Char :=
  strip isBlank text

/-- What follows `start`, if the text begins with it. -/
def after? (start : List Char) (text : List Char) : Option (List Char) :=
  if start.isPrefixOf text then some (text.drop start.length) else none

/-- Cuts a text at the last character equal to `sep`: what stands before it and what stands
after it. -/
def cutLast? (sep : Char) : List Char → Option (List Char × List Char)
  | [] => none
  | c :: cs =>
    match cutLast? sep cs with
    | some (before, after) => some (c :: before, after)
    | none => if c = sep then some ([], cs) else none

theorem cutAt_ne_nil (cut : Char → Bool) (text : List Char) : cutAt cut text ≠ [] := by
  cases text with
  | nil => simp [cutAt]
  | cons c cs =>
    rw [cutAt]
    split
    · simp
    · split <;> simp

/-- A text that can be cut at `sep` is what stands before it, `sep`, and what stands after it,
and `sep` does not occur in the latter. -/
theorem eq_of_cutLast? {sep : Char} {text before after : List Char}
    (h : cutLast? sep text = some (before, after)) :
    text = before ++ sep :: after ∧ sep ∉ after := by
  induction text generalizing before after with
  | nil => simp [cutLast?] at h
  | cons c cs ih =>
    rw [cutLast?] at h
    split at h
    next b a hcut =>
      obtain ⟨rfl, rfl⟩ := by simpa using h
      obtain ⟨rfl, ha⟩ := ih hcut
      exact ⟨rfl, ha⟩
    next hcut =>
      split at h
      next hc =>
        obtain ⟨rfl, rfl⟩ := by simpa using h
        refine ⟨by rw [hc]; rfl, fun hmem => ?_⟩
        clear ih h
        induction cs with
        | nil => simp at hmem
        | cons d ds ihd =>
          rw [cutLast?] at hcut
          split at hcut
          · simp at hcut
          next hd =>
            split at hcut
            · simp at hcut
            next hne =>
              rcases List.mem_cons.1 hmem with rfl | hmem
              · exact hne rfl
              · exact ihd hd hmem
      · simp at h

end Multicast.Text
