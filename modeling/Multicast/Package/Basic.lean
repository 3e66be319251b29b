import Multicast.Ascending
import Multicast.Package.Object

/-!
# Packages

A package is the set of its objects, one for each name. It is kept in ascending order of names, so
that two packages with the same objects are equal, in whatever order the objects were declared.
-/

namespace Multicast

/-- The objects of a package. -/
structure Package where
  id : PackageId
  objects : List Object
  sorted : Ascending.Sorted Object.name objects

namespace Package

/-- A package without objects. -/
def empty (id : PackageId) : Package :=
  ⟨id, [], Ascending.sorted_nil⟩

/-- Declares an object in place of the one with its name, if there is one. -/
def insert (pkg : Package) (object : Object) : Package where
  id := pkg.id
  objects := Ascending.insert Object.name object pkg.objects
  sorted := Ascending.sorted_insert object pkg.sorted

/-- The object with a name. -/
def lookup? (pkg : Package) (name : String) : Option Object :=
  pkg.objects.find? (·.name = name)

/-- How many objects there are. -/
def size (pkg : Package) : Nat :=
  pkg.objects.length

/-- The names that are declared. -/
def names (pkg : Package) : List String :=
  pkg.objects.map Object.name

@[simp] theorem id_insert (pkg : Package) (object : Object) : (pkg.insert object).id = pkg.id := rfl

@[simp] theorem lookup?_empty (id : PackageId) (name : String) :
    (empty id).lookup? name = none := rfl

/-- **Declaring an object changes what its name stands for, and nothing else.** -/
@[simp] theorem lookup?_insert (pkg : Package) (object : Object) (name : String) :
    (pkg.insert object).lookup? name =
      if object.name = name then some object else pkg.lookup? name :=
  Ascending.find?_insert object pkg.objects name

theorem mem_names_of_lookup? {pkg : Package} {name : String} {object : Object}
    (h : pkg.lookup? name = some object) : name ∈ pkg.names := by
  have hname : object.name = name := by simpa using List.find?_some h
  exact List.mem_map.2 ⟨object, List.mem_of_find?_eq_some h, hname⟩

end Package

end Multicast
