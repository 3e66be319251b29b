import Multicast.Hook.Location

/-!
# Locations written and read again

A location is read off the last element of a path: the name stands behind the last dot of the element,
unless the element is `.` or `..` (`parse_of_named`, `parse_of_not_named`). Written down again, it is the
text it was read from, but for a dot at the very end that no name follows.

This dot is not always idle. `./example.com.` is the directory `./example.com` without a name; but what
is written of it, `./example.com`, is the directory `./example` with the name `com`. So a location is
read back from what is written of it, unless it has no name while the last element of its directory
could end in one (`parse_text_parse_iff`).

## One cut, or none

A location is cut at most once: behind the last slash the element is looked at, and in it the last dot. So
there are two cases, with a name and without, and each of them is told by the element alone
(`CanEndInName`). Writing a location down puts the dot back if there is a name. Reading that text again
takes the other case only if the element without its name could end in a name itself, and this is what the
exact condition says.
-/

namespace Multicast

namespace Text

theorem cutLast?_eq_none_iff {sep : Char} {text : List Char} :
    cutLast? sep text = none ↔ sep ∉ text := by
  induction text with
  | nil => simp [cutLast?]
  | cons c cs ih =>
    rw [cutLast?]
    cases hcut : cutLast? sep cs with
    | none =>
      have hcs := ih.1 hcut
      simp [hcs, eq_comm]
    | some cut =>
      obtain ⟨rfl, -⟩ := eq_of_cutLast? hcut
      simp

/-- **A text is cut at its last separator.** -/
theorem cutLast?_append {sep : Char} (before : List Char) {after : List Char} (h : sep ∉ after) :
    cutLast? sep (before ++ sep :: after) = some (before, after) := by
  induction before with
  | nil => simp [cutLast?, cutLast?_eq_none_iff.2 h]
  | cons c before ih => rw [List.cons_append, cutLast?, ih]

/-- A text with a separator has a last one. -/
theorem exists_last_of_mem {sep : Char} {text : List Char} (h : sep ∈ text) :
    ∃ before after, text = before ++ sep :: after ∧ sep ∉ after := by
  cases hcut : cutLast? sep text with
  | none => exact absurd h (cutLast?_eq_none_iff.1 hcut)
  | some cut => exact ⟨cut.1, cut.2, eq_of_cutLast? hcut⟩

end Text

namespace Location

/-! ### The last element -/

/-- What can stand in front of the last element of a path: nothing, or a text that ends in a slash. -/
def IsFront (front : List Char) : Prop :=
  front = [] ∨ ∃ above, front = above ++ ['/']

/-- **An element that could end in a name**: it has a dot, and is not one of the two elements that are
directories by themselves. -/
def CanEndInName (element : List Char) : Prop :=
  '.' ∈ element ∧ element ≠ ['.'] ∧ element ≠ ['.', '.']

instance (element : List Char) : Decidable (CanEndInName element) :=
  inferInstanceAs (Decidable (_ ∧ _))

theorem lastElement_append {front last : List Char} (hfront : IsFront front) (hlast : '/' ∉ last) :
    lastElement (front ++ last) = (front, last) := by
  obtain rfl | ⟨above, rfl⟩ := hfront
  · rw [List.nil_append, lastElement, Text.cutLast?_eq_none_iff.2 hlast]
  · rw [List.append_assoc, List.singleton_append, lastElement, Text.cutLast?_append above hlast]

/-- A text has a last element. -/
theorem exists_lastElement (text : List Char) :
    ∃ front last, text = front ++ last ∧ IsFront front ∧ '/' ∉ last := by
  by_cases hslash : '/' ∈ text
  · obtain ⟨above, last, rfl, hlast⟩ := Text.exists_last_of_mem hslash
    exact ⟨above ++ ['/'], last, by simp, .inr ⟨above, rfl⟩, hlast⟩
  · exact ⟨[], text, rfl, .inl rfl, hslash⟩

/-! ### Reading -/

section

variable {front : List Char} (hfront : IsFront front)

include hfront

/-- **Without a name** all of a text is the directory. -/
theorem parse_of_not_named {last : List Char} (hlast : '/' ∉ last) (h : ¬CanEndInName last) :
    parse (String.ofList (front ++ last)) = ⟨String.ofList (front ++ last), ""⟩ := by
  rw [parse, String.toList_ofList, lastElement_append hfront hlast]
  dsimp only
  split
  next => rfl
  next hdots =>
    obtain ⟨hone, htwo⟩ := not_or.1 hdots
    have hdot : '.' ∉ last := fun hdot => h ⟨hdot, hone, htwo⟩
    rw [Text.cutLast?_eq_none_iff.2 hdot]

/-- **With a name** the directory ends in front of the last dot. -/
theorem parse_of_named {stem object : List Char} (hlast : '/' ∉ stem ++ '.' :: object)
    (h : CanEndInName (stem ++ '.' :: object)) (hobject : '.' ∉ object) :
    parse (String.ofList (front ++ (stem ++ '.' :: object))) =
      ⟨String.ofList (front ++ stem), String.ofList object⟩ := by
  rw [parse, String.toList_ofList, lastElement_append hfront hlast]
  dsimp only
  rw [if_neg (not_or.2 h.2), Text.cutLast?_append stem hobject]

end

/-- **Every text is read in one of two ways.** -/
theorem parse_cases (s : String) :
    (∃ front last, IsFront front ∧ '/' ∉ last ∧ ¬CanEndInName last ∧
      s = String.ofList (front ++ last) ∧ parse s = ⟨s, ""⟩) ∨
    ∃ front stem object, IsFront front ∧ '/' ∉ stem ∧ '/' ∉ object ∧ '.' ∉ object ∧
      CanEndInName (stem ++ '.' :: object) ∧ s = String.ofList (front ++ (stem ++ '.' :: object)) ∧
      parse s = ⟨String.ofList (front ++ stem), String.ofList object⟩ := by
  obtain ⟨front, last, htext, hfront, hlast⟩ := exists_lastElement s.toList
  have hs : s = String.ofList (front ++ last) := by rw [← htext, String.ofList_toList]
  by_cases hnamed : CanEndInName last
  · obtain ⟨stem, object, rfl, hobject⟩ := Text.exists_last_of_mem hnamed.1
    have hslash : '/' ∉ stem ∧ '/' ∉ object := by simpa using hlast
    refine .inr ⟨front, stem, object, hfront, hslash.1, hslash.2, hobject, hnamed, hs, ?_⟩
    exact hs ▸ parse_of_named hfront hlast hnamed hobject
  · refine .inl ⟨front, last, hfront, hlast, hnamed, hs, ?_⟩
    rw [hs]
    exact parse_of_not_named hfront hlast hnamed

/-! ### Reading again -/

/-- **A text whose last dot is idle**: no name follows it, and yet the element in front of it could end
in one. -/
def EndsIdly (s : String) : Prop :=
  ∃ front stem, s = String.ofList (front ++ (stem ++ ['.'])) ∧ IsFront front ∧ '/' ∉ stem ∧
    CanEndInName stem

theorem text_of_named {package object : List Char} (h : object ≠ []) :
    text ⟨String.ofList package, String.ofList object⟩ =
      String.ofList (package ++ '.' :: object) := by
  have hname : (String.ofList object).isEmpty = false := by simpa using h
  rw [text, hname, ← String.toList_inj]
  simp

theorem text_of_not_named (package : String) : text ⟨package, ""⟩ = package := rfl

/-- **A location is read back from what is written of it**, unless it was read from a text with an idle
dot at its end. -/
theorem parse_text_parse_iff (s : String) : parse (parse s).text = parse s ↔ ¬EndsIdly s := by
  constructor
  · rintro hback ⟨front, stem, rfl, hfront, hslash, hnamed⟩
    -- the idle dot is read, and not written again
    have hread : parse (String.ofList (front ++ (stem ++ ['.']))) =
        ⟨String.ofList (front ++ stem), ""⟩ := by
      refine parse_of_named hfront (by simpa using hslash) ⟨by simp, ?_, ?_⟩ (by simp)
      · rintro hdot
        have hnone : stem = [] := by simpa using hdot
        exact absurd hnamed.1 (by simp [hnone])
      · rintro hdots
        have hone : stem = ['.'] := by simpa using congrArg List.dropLast hdots
        exact hnamed.2.1 hone
    rw [hread, text_of_not_named] at hback
    -- so the name is looked for behind the dot in front of it
    obtain ⟨stem, object, rfl, hobject⟩ := Text.exists_last_of_mem hnamed.1
    rw [parse_of_named hfront hslash hnamed hobject] at hback
    have hlength := congrArg (fun l => l.package.toList.length) hback
    simp at hlength
  · intro h
    obtain ⟨front, last, -, -, -, -, hread⟩ | ⟨front, stem, object, hfront, hslash, -, -, hnamed, rfl,
      hread⟩ := parse_cases s
    · rw [hread, text_of_not_named, hread]
    · by_cases hobject : object = []
      · subst hobject
        have hstem : ¬CanEndInName stem := fun hstem => h ⟨front, stem, rfl, hfront, hslash, hstem⟩
        rw [hread]
        exact parse_of_not_named hfront hslash hstem
      · have htext : (parse (String.ofList (front ++ (stem ++ '.' :: object)))).text =
            String.ofList (front ++ (stem ++ '.' :: object)) := by
          rw [hread, text_of_named hobject, List.append_assoc]
        rw [htext]

/-- **Locations that are written down**: the name has no slash and no dot, what is written is the text
that was read but for a dot at its end, and it is read as the same location, unless that dot is idle. -/
theorem parse_and_text (s : String) :
    ('/' ∉ (parse s).object.toList ∧ '.' ∉ (parse s).object.toList) ∧
      ((parse s).text = s ∨ (parse s).text ++ "." = s) ∧
      (parse (parse s).text = parse s ↔ ¬EndsIdly s) := by
  refine ⟨?_, ?_, parse_text_parse_iff s⟩
  · obtain ⟨-, -, -, -, -, -, hread⟩ | ⟨_, _, object, -, -, hslash, hdot, -, -, hread⟩ :=
      parse_cases s
    · rw [hread]
      simp
    · rw [hread, String.toList_ofList]
      exact ⟨hslash, hdot⟩
  · obtain ⟨-, -, -, -, -, -, hread⟩ | ⟨front, stem, object, -, -, -, -, -, rfl, hread⟩ := parse_cases s
    · exact .inl (by rw [hread, text_of_not_named])
    · rw [hread]
      by_cases hobject : object = []
      · subst hobject
        refine .inr ?_
        have hnone : text ⟨String.ofList (front ++ stem), String.ofList []⟩ =
            String.ofList (front ++ stem) := rfl
        rw [hnone, ← String.toList_inj]
        simp
      · exact .inl (by rw [text_of_named hobject, List.append_assoc])

/-- **Not every location is read back**: without its name, `example.com` is a directory; written down, it
is the directory `example` with the name `com`. -/
theorem not_parse_text_parse :
    parse "./example.com." = ⟨"./example.com", ""⟩ ∧ (parse "./example.com.").text = "./example.com" ∧
      parse "./example.com" = ⟨"./example", "com"⟩ ∧
      ¬∀ s, parse (parse s).text = parse s := by
  have hread : parse "./example.com." = ⟨"./example.com", ""⟩ := by decide
  have hagain : parse "./example.com" = ⟨"./example", "com"⟩ := by decide
  refine ⟨hread, by rw [hread]; rfl, hagain, fun h => ?_⟩
  have hback := h "./example.com."
  rw [hread, text_of_not_named, hagain] at hback
  exact absurd hback (by decide)

end Location

end Multicast
