import Multicast.Hook.Location

/-!
# What to generate

A `Config` says which interface to hook, where the hook goes, and how the file is written.
-/

namespace Multicast

/-- What the generated file is laid out by. -/
inductive Formatter
  /-- The layout tool. -/
  | gofmt
  /-- The layout tool that also mends imports. -/
  | goimports
  /-- Nothing: the file is written as it is generated. -/
  | noop
  deriving DecidableEq, Repr

namespace Formatter

/-- The name of a formatter. -/
def name : Formatter → String
  | gofmt => "gofmt"
  | goimports => "goimports"
  | noop => "noop"

/-- The formatter with a name. -/
def ofName? (name : String) : Option Formatter :=
  [gofmt, goimports, noop].find? (·.name = name)

/-- What is said of a name that no formatter has. -/
def unknownMessage (name : String) : String :=
  "unknown formatter '" ++ name ++ "' (expected gofmt, goimports or noop)"

end Formatter

/-- The name of the generated file, unless another one is asked for. -/
def defaultFileName : String := "generated.go"

/-- What to generate. -/
structure Config where
  /-- The package and the interface in it. -/
  source : Location
  /-- The directory of the hook and the name of its type. -/
  destination : Location
  /-- Whether a mutex guards the hook. -/
  threadSafe : Bool := false
  formatter : Formatter := .gofmt
  /-- The name of the file in the directory of the hook. -/
  fileName : String := defaultFileName
  deriving DecidableEq, Repr

/-- Why nothing can be generated, whatever the packages hold. -/
inductive ConfigError
  | emptySource
  | emptyDestination
  | missingInterface (source : String)
  deriving DecidableEq, Repr

/-- The wording of an incomplete configuration. -/
def ConfigError.message : ConfigError → String
  | emptySource => "source location can't be empty"
  | emptyDestination => "destination location can't be empty"
  | missingInterface source =>
    "source location '" ++ source ++
      "' doesn't name an interface (expected /path/to/package.InterfaceName)"

/-- Checks that a configuration names an interface and a destination. -/
def Config.validate (config : Config) : Except ConfigError Unit :=
  if config.source.isEmpty then .error .emptySource
  else if config.destination.isEmpty then .error .emptyDestination
  else if config.source.object.isEmpty then .error (.missingInterface config.source.text)
  else .ok ()

end Multicast
