import Multicast.Text.Cut

/-!
# Locations

A location is written as a directory and, behind a dot, the name of something declared in it:
`./internal/instance.Callback`. The dot is the last one of the last path element; the elements `.`
and `..` are directories, and a dot at the very end is followed by the empty name, which stands for
no name.
-/

namespace Multicast

/-- A package directory and a name in it. Either may be empty. -/
structure Location where
  package : String
  object : String
  deriving DecidableEq, Repr

namespace Location

/-- The last path element of a text, and what stands before it, the slash included. -/
def lastElement (text : List Char) : List Char × List Char :=
  match Text.cutLast? '/' text with
  | some (before, last) => (before ++ ['/'], last)
  | none => ([], text)

/-- Reads a location. -/
def parse (text : String) : Location :=
  let (before, last) := lastElement text.toList
  if last = ['.'] ∨ last = ['.', '.'] then ⟨text, ""⟩
  else match Text.cutLast? '.' last with
    | some (stem, object) => ⟨String.ofList (before ++ stem), String.ofList object⟩
    | none => ⟨text, ""⟩

/-- Writes a location. -/
def text (l : Location) : String :=
  if l.object.isEmpty then l.package else l.package ++ "." ++ l.object

/-- The directory of the package. Without one it is the current directory. -/
def dir (l : Location) : String :=
  if l.package.isEmpty then "." else l.package

/-- Whether a location says nothing at all. -/
def isEmpty (l : Location) : Bool :=
  l.package.isEmpty && l.object.isEmpty

end Location

end Multicast
