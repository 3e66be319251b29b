import Multicast.Text.Cut
import Multicast.Text.Letter
import Multicast.Text.Numeral

/-!
# Packages and their names

A package is identified by its import path and the name its files declare. A file that imports a
package gives only the path; `guessName` then makes a name out of it, following the conventions of
module paths: a last element that is a major version is not the name, a version suffix and a
leading `go-` do not belong to it, and what cannot stand in a name becomes an underscore.
-/

namespace Multicast

open Text

/-- The identity of a package: its import path and the name it declares. -/
structure PackageId where
  path : String
  name : String
  deriving DecidableEq, Repr, Inhabited

namespace PackageId

/-- A major version as module paths write it: a `v` and digits. -/
def isMajorVersion : List Char → Bool
  | 'v' :: digits => !digits.isEmpty && digits.all Char.isDigit
  | _ => false

/-- The path element that names the package: the last one, or the one before it if the last is a
major version. -/
def namingElement (path : List Char) : List Char :=
  match ((cutAt (· == '/') path).filter (!·.isEmpty)).reverse with
  | [] => path
  | [last] => last
  | last :: previous :: _ => if isMajorVersion last then previous else last

/-- Drops a version suffix, as in `yaml.v3`. -/
def dropVersion (element : List Char) : List Char :=
  match cutLast? '.' element with
  | some (stem, suffix) => if isMajorVersion suffix then stem else element
  | none => element

/-- Drops a leading `go-`. -/
def dropLanguage (element : List Char) : List Char :=
  (after? ['g', 'o', '-'] element).getD element

/-- The name of the package at an import path, as far as the path tells it. -/
def guessName (path : String) : String :=
  let element := dropLanguage (dropVersion (namingElement path.toList))
  String.ofList (element.map fun c => if isLetter c || isNumeral c || c = '_' then c else '_')

/-- The package at an import path, under the name the path suggests. -/
def ofPath (path : String) : PackageId :=
  ⟨path, guessName path⟩

end PackageId

end Multicast
