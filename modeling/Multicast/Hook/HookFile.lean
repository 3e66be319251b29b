import Multicast.Ascending
import Multicast.Text.Json

/-!
# The generated file

A `HookFile` holds what differs between generated files. `lines` writes the file line by line:
the hook type, the type of its entries, the type of the function that removes an entry, and three
methods, which append an entry, remove it, and forward the hooked method to all entries in order. A
thread-safe hook has a mutex, and each of the three methods holds it while it runs.
-/

namespace Multicast

/-- What differs between generated files. -/
structure HookFile where
  packageName : String
  /-- The imports that the hooked method needs. -/
  imports : List String
  hookName : String
  /-- The hooked interface as the file refers to it. -/
  interfaceRef : String
  methodName : String
  declarationArgs : List String
  callArgs : List String
  threadSafe : Bool
  receiver : String
  /-- The loop variable of the forwarding method. -/
  entry : String
  deriving DecidableEq, Repr

namespace HookFile

/-- The package of the mutex. -/
def syncPackage : String := "sync"

/-- The first line of every generated file. -/
def header : String := "// Code generated by hoog; DO NOT EDIT."

/-- The imports of the file. -/
def fileImports (t : HookFile) : List String :=
  let imports := Ascending.ofList id t.imports
  if t.threadSafe then Ascending.insert id syncPackage imports else imports

/-- The lines of the import block, of which there is none if nothing is imported. -/
def importLines (imports : List String) : List String :=
  if imports.isEmpty then []
  else ["import ("] ++ imports.map (fun path => "\t\"" ++ path ++ "\"") ++ [")", ""]

/-- The lines that take the mutex for the rest of a method. -/
def lockLines (t : HookFile) : List String :=
  if t.threadSafe then
    ["\t" ++ t.receiver ++ ".mu.Lock()", "\tdefer " ++ t.receiver ++ ".mu.Unlock()", ""]
  else []

/-- The lines of the three types. -/
def typeLines (t : HookFile) : List String :=
  ["// " ++ t.hookName ++ " calls " ++ t.methodName ++ " on every appended " ++ t.interfaceRef ++
      " in the order they were appended.",
    "type " ++ t.hookName ++ " struct \x7b",
    "\tlist []*hooked"] ++
  (if t.threadSafe then ["\tmu   sync.Mutex"] else []) ++
  ["\x7d",
    "",
    "type hooked struct \x7b",
    "\t" ++ t.interfaceRef,
    "\x7d",
    "",
    "// Cancel removes the entry it was returned for.",
    "type Cancel = func()",
    ""]

/-- The line that opens a method of the hook. -/
def methodLine (t : HookFile) (rest : String) : String :=
  "func (" ++ t.receiver ++ " *" ++ t.hookName ++ ") " ++ rest ++ " \x7b"

/-- The lines of the method that appends an entry. -/
def appendLines (t : HookFile) : List String :=
  let list := t.receiver ++ ".list"
  ["// Append registers item and returns a Cancel that removes it again.",
    t.methodLine ("Append(item " ++ t.interfaceRef ++ ") Cancel")] ++
  t.lockLines ++
  ["\tentry := &hooked\x7bitem\x7d",
    "\t" ++ list ++ " = append(" ++ list ++ ", entry)",
    "",
    "\treturn func() \x7b " ++ t.receiver ++ ".remove(entry) \x7d",
    "\x7d",
    ""]

/-- The lines of the method that removes an entry. -/
def removeLines (t : HookFile) : List String :=
  let list := t.receiver ++ ".list"
  [t.methodLine "remove(entry *hooked)"] ++
  t.lockLines ++
  ["\tfor i := range " ++ list ++ " \x7b",
    "\t\tif " ++ list ++ "[i] == entry \x7b",
    "\t\t\t" ++ list ++ " = append(" ++ list ++ "[:i], " ++ list ++ "[i+1:]...)",
    "\t\t\tbreak",
    "\t\t\x7d",
    "\t\x7d",
    "\x7d",
    ""]

/-- The lines of the method that forwards to all entries. -/
def forwardLines (t : HookFile) : List String :=
  ["// " ++ t.methodName ++ " calls " ++ t.methodName ++ " on every appended entry.",
    t.methodLine (t.methodName ++ "(" ++ ", ".intercalate t.declarationArgs ++ ")")] ++
  t.lockLines ++
  ["\tfor _, " ++ t.entry ++ " := range " ++ t.receiver ++ ".list \x7b",
    "\t\t" ++ t.entry ++ "." ++ t.methodName ++ "(" ++ ", ".intercalate t.callArgs ++ ")",
    "\t\x7d",
    "\x7d"]

/-- The lines of the file. -/
def lines (t : HookFile) : List String :=
  [header, "", "package " ++ t.packageName, ""] ++ importLines t.fileImports ++ t.typeLines ++
    t.appendLines ++ t.removeLines ++ t.forwardLines

/-- The text of the file. -/
def render (t : HookFile) : String :=
  String.join (t.lines.map (· ++ "\n"))

/-- What differs between generated files, as a JSON object. -/
def json (t : HookFile) : String :=
  Text.Json.object [
    ("package_name", .text t.packageName),
    ("imports", .texts t.imports),
    ("hook_name", .text t.hookName),
    ("interface_ref", .text t.interfaceRef),
    ("method_name", .text t.methodName),
    ("declaration_args", .texts t.declarationArgs),
    ("call_args", .texts t.callArgs),
    ("thread_safe", .flag t.threadSafe),
    ("receiver", .text t.receiver),
    ("entry", .text t.entry)]

end HookFile

end Multicast
