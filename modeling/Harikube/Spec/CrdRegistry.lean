import Harikube.Spec.Resources
import Harikube.Spec.Transaction

/-!
# The registry of custom resource definitions

`RegisterCustomResourceDefinition` (`pkg/util/selector.go`): the selectable fields of each version
of a definition are kept under the version, the group and the declared plural. The server calls it
with every definition that it has stored. A panic leaves the fields that were set before it.
-/

namespace Harikube

open Sorted

/-- How `RegisterCustomResourceDefinition` fails. -/
inductive RegisterErr
  | unmarshal
  | writeFile
  | panicked
deriving DecidableEq

namespace CrdRegistry

/-- An entry of a JSON object; a missing one is nil. -/
def entry (fields : List (Bytes × GoValue)) (name : String) : GoValue :=
  ((fields.find? fun p => p.1 = ascii name).map Prod.snd).getD .null

/-- `cm`; `none` is a failed assertion. -/
def cm : GoValue → Option (List (Bytes × GoValue))
  | .null => some []
  | v => v.asObject

/-- `cs`; `none` is a failed assertion. -/
def cs : GoValue → Option (List GoValue)
  | .null => some []
  | .slice items => some items
  | _ => none

/-- The `jsonPath` of a selectable field, without the dot in front. -/
def jsonPath (f : GoValue) : Option Bytes := do
  let path ← (entry (← cm f) "jsonPath").asString
  return trimPrefix path (ascii ".")

/-- The paths of the `selectableFields` of an object. -/
def selectableFields (fields : List (Bytes × GoValue)) : Option (List Bytes) := do
  (← cs (entry fields "selectableFields")).mapM jsonPath

/-- `%s`; `sprint` is what it makes of a value that is no string. -/
def showValue (sprint : GoValue → Bytes) : GoValue → Bytes
  | .string s => s
  | v => sprint v

/-- What the loop does with a version: the text to register and its fields, or nothing. -/
def versionEntry (sprint : GoValue → Bytes) (group plural : GoValue) (specFields : List Bytes) (v : GoValue) :
    Option (Option (Bytes × List Bytes)) := do
  let version ← cm v
  let fields := specFields ++ (← selectableFields version)
  -- a version without fields is skipped, and keeps what was registered for it
  if fields = [] then return none
  let name ← (entry version "name").asString
  return some (crdKey name (showValue sprint group) (← plural.asString), fields)

/-- The loop over the versions: the registry, whether anything was stored, and whether it panicked. -/
def versionsLoop (sprint : GoValue → Bytes) (group plural : GoValue) (specFields : List Bytes) :
    List GoValue → CustomResourceDefs → Bool → CustomResourceDefs × Bool × Bool
  | [], defs, stored => (defs, stored, false)
  | v :: rest, defs, stored =>
    match versionEntry sprint group plural specFields v with
    | none => (defs, stored, true)
    | some none => versionsLoop sprint group plural specFields rest defs stored
    | some (some (key, fields)) =>
      versionsLoop sprint group plural specFields rest (defs.insert key fields) true

/-- `RegisterCustomResourceDefinition` for a file that can be written or not. -/
def registerCustomResourceDefinition (unmarshal : Decoder) (sprint : GoValue → Bytes) (canWrite : Bool)
    (defs : CustomResourceDefs) (rawDef : Bytes) : Option RegisterErr × CustomResourceDefs :=
  match unmarshal rawDef with
  | none => (some .unmarshal, defs)
  | some definition =>
    let parts : Option (GoValue × GoValue × List Bytes × List GoValue) := do
      let spec ← cm (entry definition "spec")
      let names ← cm (entry spec "names")
      let fields ← selectableFields spec
      return (entry spec "group", entry names "plural", fields, ← cs (entry spec "versions"))
    match parts with
    | none => (some .panicked, defs)
    | some (group, plural, specFields, versions) =>
      let r := versionsLoop sprint group plural specFields versions defs false
      if r.2.2 then (some .panicked, r.1)
      else if r.2.1 && !canWrite then (some .writeFile, r.1)
      else (none, r.1)

end CrdRegistry

end Harikube
