import Multicast.Types.GoType

/-!
# Types as text

A type is written in the syntax of the source language. The one thing left open is what stands in
front of the name of a declared type; a *qualifier* decides it for each package, and is asked for
every such name from left to right. Since a qualifier may take notes on what it is asked, it works
in a monad: `renderM` is the general form, `render` the one for a qualifier that is a plain
function.
-/

namespace Multicast

/-- A name behind its qualifier. The empty qualifier leaves it alone. -/
def qualify (qualifier name : String) : String :=
  if qualifier.isEmpty then name else qualifier ++ "." ++ name

/-- A text between braces. -/
def braces (text : String) : String :=
  "\x7b" ++ text ++ "\x7d"

/-- A parameter or result as it is written, given its type as text. -/
def paramText (name type : String) : String :=
  if name.isEmpty then type else name ++ " " ++ type

/-- A field as it is written, given its type as text. -/
def fieldText (name : Option String) (type : String) (tag : Option String) : String :=
  (name.elim "" (· ++ " ")) ++ type ++ (tag.elim "" (" " ++ ·))

/-- A channel type as it is written, given its element type as text. A channel that is received
from a channel stands in parentheses, so that the arrow is read with it. -/
def chanText (direction : Direction) (nested : Bool) (elem : String) : String :=
  match direction with
  | .both => if nested then "chan (" ++ elem ++ ")" else "chan " ++ elem
  | .send => "chan<- " ++ elem
  | .receive => "<-chan " ++ elem

section

variable {m : Type → Type} [Monad m] (qualifier : PackageId → m String)

mutual

/-- Writes a type. -/
def GoType.renderM : GoType → m String
  | .basic name => pure name
  | .named package name => do
    let q ← qualifier package
    pure (qualify q name)
  | .pointer elem => do
    let elem ← elem.renderM
    pure ("*" ++ elem)
  | .slice elem => do
    let elem ← elem.renderM
    pure ("[]" ++ elem)
  | .array length elem => do
    let elem ← elem.renderM
    pure ("[" ++ length ++ "]" ++ elem)
  | .map key value => do
    let key ← key.renderM
    let value ← value.renderM
    pure ("map[" ++ key ++ "]" ++ value)
  | .chan direction elem => do
    let text ← elem.renderM
    pure (chanText direction elem.isReceiver text)
  | .func signature => do
    let signature ← signature.renderM
    pure ("func" ++ signature)
  | .interface ⟨methods, embeds⟩ => do
    let methods ← Method.renderAllM methods
    let embeds ← GoType.renderAllM embeds
    pure ("interface" ++ braces ("; ".intercalate (methods ++ embeds)))
  | .struct fields => do
    let fields ← Field.renderAllM fields
    pure ("struct" ++ braces ("; ".intercalate fields))

/-- Writes types one by one. -/
def GoType.renderAllM : List GoType → m (List String)
  | [] => pure []
  | type :: types => do
    let text ← type.renderM
    let texts ← GoType.renderAllM types
    pure (text :: texts)

/-- Writes parameters and results. A single result without a name needs no parentheses. -/
def Signature.renderM : Signature → m String
  | ⟨params, results, variadic⟩ => do
    let params ← Param.renderAllM variadic params
    let texts ← Param.renderAllM false results
    let results := match results, texts with
      | [⟨"", _⟩], [text] => " " ++ text
      | [], _ => ""
      | _, texts => " (" ++ ", ".intercalate texts ++ ")"
    pure ("(" ++ ", ".intercalate params ++ ")" ++ results)

/-- Writes parameters one by one. The last one of a variadic function shows its element type
behind three dots. -/
def Param.renderAllM (variadic : Bool) : List Param → m (List String)
  | [] => pure []
  | [⟨name, .slice elem⟩] => do
    let elem ← elem.renderM
    pure [paramText name ((if variadic then "..." else "[]") ++ elem)]
  | ⟨name, type⟩ :: params => do
    let text ← type.renderM
    let texts ← Param.renderAllM variadic params
    pure (paramText name text :: texts)

/-- Writes methods one by one. -/
def Method.renderAllM : List Method → m (List String)
  | [] => pure []
  | ⟨name, signature⟩ :: methods => do
    let text ← signature.renderM
    let texts ← Method.renderAllM methods
    pure ((name ++ text) :: texts)

/-- Writes fields one by one. -/
def Field.renderAllM : List Field → m (List String)
  | [] => pure []
  | ⟨name, type, tag⟩ :: fields => do
    let text ← type.renderM
    let texts ← Field.renderAllM fields
    pure (fieldText name text tag :: texts)

end

end

/-- A type as text, with `qualifier` in front of the names of declared types. -/
def GoType.render (qualifier : PackageId → String) (type : GoType) : String :=
  Id.run (type.renderM fun package => pure (qualifier package))

/-- A type as text, with the full import path in front of the names of declared types. -/
def GoType.canonical (type : GoType) : String :=
  type.render PackageId.path

/-- A signature as the text of a function type, with full import paths. -/
def Signature.canonical (signature : Signature) : String :=
  (GoType.func signature).canonical

end Multicast
