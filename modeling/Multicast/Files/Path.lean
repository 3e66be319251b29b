import Multicast.Text.Cut

/-!
# Paths

A path is a text. Its elements are what stands between its slashes. A `Place` is a directory or a
file by the names that lead to it from the root; `absolute` finds the place a path means if every
`..` goes back one name, whether or not the names exist.
-/

namespace Multicast.Files

/-- The names that lead from the root to a file or directory. -/
abbrev Place := List String

/-- The text of a place. -/
def Place.text (place : Place) : String :=
  "/" ++ "/".intercalate place

namespace Path

/-- Whether a path starts at the root. -/
def isAbsolute (path : String) : Bool :=
  path.toList.head? = some '/'

/-- Whether a path ends with a slash. -/
def endsWithSlash (path : String) : Bool :=
  path.toList.getLast? = some '/'

/-- What stands between the slashes of a path. -/
def elements (path : String) : List String :=
  ((Text.cutAt (· == '/') path.toList).filter (!·.isEmpty)).map String.ofList

/-- A path behind a directory. An absolute path takes the place of the directory. -/
def join (dir path : String) : String :=
  if isAbsolute path then path
  else if dir.isEmpty || endsWithSlash dir then dir ++ path
  else dir ++ "/" ++ path

/-- The place that one more element leads to. -/
def follow (place : Place) (element : String) : Place :=
  if element = "." then place
  else if element = ".." then place.dropLast
  else place ++ [element]

/-- The place that a path means, seen from a directory. -/
def absolute (cwd : Place) (path : String) : Place :=
  (elements path).foldl follow (if isAbsolute path then [] else cwd)

/-- The places that elements lead through, from a place on. -/
def trail (place : Place) : List String → List Place
  | [] => [place]
  | element :: elements => place :: trail (follow place element) elements

/-- The places that a path leads through, seen from a directory, and the places above them. -/
def waypoints (cwd : Place) (path : String) : List Place :=
  let places := trail (if isAbsolute path then [] else cwd) (elements path)
  (places.flatMap fun place => (List.range (place.length + 1)).map place.take).eraseDups

/-- The elements of a path that name something: a `.` counts only at the beginning of a path that
is not absolute. -/
def components (path : String) : List String :=
  match elements path with
  | [] => []
  | first :: others =>
    let others := others.filter (· ≠ ".")
    if first = "." ∧ isAbsolute path then others else first :: others

/-- The paths of the directories above a path, as elements, from the nearest upwards. -/
def parents (path : String) : List (List String) :=
  let above := (components path).dropLast
  (List.range above.length).reverse.map fun n => above.take (n + 1)

end Path

end Multicast.Files
