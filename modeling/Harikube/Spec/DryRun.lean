import Harikube.Spec.Resources
import Harikube.Spec.SelectorSql

/-!
# The target of a dry run

`pkg/streams/helper.go`: `performKubernetesDryRun` asks the API server about the object of a
message. The resource, the namespace and the name are read from the decoded object, or from the key
when there is none, as in the messages of deletes. Errors are their texts.
-/

namespace Harikube

open SelectorSql (trimSuffix)

/-- `unstructured.Unstructured`, as far as the target depends on it. -/
structure Unstructured where
  gvk : GroupVersionKind
  name : Bytes
  ns : Bytes

/-- What `determineResourceAndGVK` returns. -/
structure Resource where
  plural : Bytes
  registryPrefix : Bytes
  namespaced : Bool
  gvk : GroupVersionKind

def registry : Bytes := ascii "/registry/"

/-- `known`: the kinds that are recognised by the first part of a key. -/
def knownKinds : List (Bytes × GroupVersionKind) :=
  let known := fun (plural group kind : String) => (ascii plural, ⟨ascii group, ascii "v1", ascii kind⟩)
  [ known "pods" "" "Pod",
    known "events" "" "Event",
    known "secrets" "" "Secret",
    known "namespaces" "" "Namespace",
    known "replicasets" "apps" "ReplicaSet",
    known "replicationcontrollers" "" "ReplicationController",
    known "jobs" "batch" "Job",
    known "minions" "" "Node",
    known "certificatesigningrequests" "certificates.k8s.io" "CertificateSigningRequest" ]

/-- The kind that is inferred from the first part of a key: a known one, or the part without an `s`
at its end, as a title, in the core group. -/
def inferGVK (t : Words) (plural : Bytes) : GroupVersionKind :=
  match knownKinds.find? fun p => p.1 = plural with
  | some p => p.2
  | none => ⟨[], ascii "v1", t.title (trimSuffix plural (ascii "s"))⟩

/-- The plural in a registry prefix: the last of its parts. -/
def prefixPlural (registryPrefix : Bytes) : Bytes :=
  if registry.isPrefixOf registryPrefix then
    let raw := trimSuffix (trimPrefix registryPrefix registry) (ascii "/")
    let parts := raw.splitOn slash
    if parts.length > 1 then parts.getLast?.getD [] else raw
  else []

def unsupportedKey (key : Bytes) : Bytes := ascii "unsupported registry key for dry-run: " ++ key

/-- `determineResourceAndGVK`. -/
def determineResourceAndGVK (t : Words) (decoded : Option Unstructured) (key : Bytes) : Except Bytes Resource :=
  match decoded with
  | some obj =>
    let mapping := getResourceMappingByGVK t obj.gvk
    .ok ⟨prefixPlural mapping.registryPrefix, mapping.registryPrefix, mapping.namespaced, obj.gvk⟩
  | none =>
    if registry.isPrefixOf key then
      match (trimPrefix key registry).splitOn slash with
      | [] => .error (unsupportedKey key)
      | plural :: _ =>
        if plural = [] then .error (unsupportedKey key)
        else
          let gvk := inferGVK t plural
          let mapping := getResourceMappingByGVK t gvk
          .ok ⟨plural, mapping.registryPrefix, mapping.namespaced, gvk⟩
    else .error (unsupportedKey key)

/-- The error of a key whose namespace or name is missing. -/
def invalidKey (plural what key : Bytes) : Bytes :=
  ascii "invalid " ++ plural ++ ascii " key, " ++ what ++ ascii ": " ++ key

/-- The part at an index of the key, unless there are fewer parts than `least` or it is empty. -/
def keyPart (relParts : List Bytes) (least i : ℕ) (err : Bytes) : Except Bytes Bytes :=
  let part := relParts[i]?.getD []
  if relParts.length < least ∨ part = [] then .error err else .ok part

/-- `resolveNameNamespace`: the name and the namespace. -/
def resolveNameNamespace (decoded : Option Unstructured) (resource : Resource) (key : Bytes) :
    Except Bytes (Bytes × Bytes) := do
  let name := (decoded.map Unstructured.name).getD []
  let ns := (decoded.map Unstructured.ns).getD []
  let plural ←
    if resource.plural = [] then
      if registry.isPrefixOf key then .ok (((trimPrefix key registry).splitOn slash).headD [])
      else .error (unsupportedKey key)
    else .ok resource.plural
  let trimmed :=
    if resource.registryPrefix ≠ [] ∧ registry.isPrefixOf resource.registryPrefix then
      trimSuffix resource.registryPrefix (ascii "/") ++ ascii "/"
    else registry ++ plural ++ ascii "/"
  let rel := trimPrefix key trimmed
  let relParts := if rel = [] then [] else rel.splitOn slash
  if resource.namespaced then
    let ns ← if ns = [] then
        keyPart relParts 2 0 (invalidKey plural (ascii "namespace is missing for namespaced") key)
      else .ok ns
    let name ← if name = [] then
        keyPart relParts 2 1 (invalidKey plural (ascii "name is missing for namespaced") key)
      else .ok name
    return (name, ns)
  else
    let name ← if name = [] then
        keyPart relParts 1 0 (invalidKey plural (ascii "name is missing for clustered") key)
      else .ok name
    return (name, ns)

/-- What a dry run is sent to, but for the version. -/
structure Target where
  plural : Bytes
  group : Bytes
  namespaced : Bool
  ns : Bytes
  name : Bytes
deriving DecidableEq

/-- The target of `performKubernetesDryRun`. -/
def dryRunTarget (t : Words) (decoded : Option Unstructured) (key : Bytes) : Except Bytes Target := do
  let resource ← determineResourceAndGVK t decoded key
  let (name, ns) ← resolveNameNamespace decoded resource key
  return ⟨resource.plural, resource.gvk.group, resource.namespaced, ns, name⟩

end Harikube
