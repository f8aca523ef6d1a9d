import Harikube.Spec.Insert

/-!
# Objects and resources

`pkg/util/selector.go`: the type that a key selects, the metadata that is read from an object of
that type, and the registry prefix of a group, version and kind. The pluraliser belongs to another
library, and upper and lower case beyond ASCII to the Unicode tables; both are parameters.
-/

namespace Harikube

open Sorted

/-! ## Words -/

/-- What the names of resources are made with: `pluralize.Plural`, and `strings.ToLower` and
`strings.Title` of a string that is not ASCII. The plural
and the lower case of a word that is not empty are not empty, and none of the three brings in a
slash. -/
structure Words where
  plural : Bytes → Bytes
  lowerOther : Bytes → Bytes
  titleOther : Bytes → Bytes
  plural_ne : ∀ s, s ≠ [] → plural s ≠ []
  plural_slash : ∀ s, slash ∉ s → slash ∉ plural s
  lower_ne : ∀ s, s ≠ [] → lowerOther s ≠ []
  lower_slash : ∀ s, slash ∉ s → slash ∉ lowerOther s
  title_slash : ∀ s, slash ∉ s → slash ∉ titleOther s

def isAscii (s : Bytes) : Bool := s.all fun c => c.val < 128

def lowerByte (c : Fin 256) : Fin 256 :=
  if 65 ≤ c.val ∧ c.val ≤ 90 then Fin.ofNat 256 (c.val + 32) else c

def upperByte (c : Fin 256) : Fin 256 :=
  if 97 ≤ c.val ∧ c.val ≤ 122 then Fin.ofNat 256 (c.val - 32) else c

/-- `isSeparator` of an ASCII character: it is no letter, digit or underscore. -/
def isSeparator (c : Fin 256) : Bool :=
  !((48 ≤ c.val && c.val ≤ 57) || (97 ≤ c.val && c.val ≤ 122) ||
    (65 ≤ c.val && c.val ≤ 90) || c.val = 95)

/-- The loop of `strings.Title` over an ASCII string, with the character before. -/
def titleLoop : Fin 256 → Bytes → Bytes
  | _, [] => []
  | prev, c :: cs => (if isSeparator prev then upperByte c else c) :: titleLoop c cs

namespace Words

variable (t : Words)

/-- `strings.ToLower`. -/
def toLower (s : Bytes) : Bytes := if isAscii s then s.map lowerByte else t.lowerOther s

/-- `strings.Title`. -/
def title (s : Bytes) : Bytes := if isAscii s then titleLoop (Fin.ofNat 256 ' '.toNat) s else t.titleOther s

end Words

/-- `strings.TrimPrefix`. -/
def trimPrefix (s pre : Bytes) : Bytes := if pre.isPrefixOf s then s.drop pre.length else s

/-! ## Resources -/

/-- `schema.GroupVersionKind`. -/
structure GroupVersionKind where
  group : Bytes
  version : Bytes
  kind : Bytes
deriving DecidableEq

/-- What `GetResourceMappingByGVK` returns. -/
structure ResourceMapping where
  registryPrefix : Bytes
  apiBasePath : Bytes
  namespaced : Bool
deriving DecidableEq

/-- The entry of a kind that the switch names: its group and kind, and what is returned for it. -/
structure NamedKind where
  group : Bytes
  kind : Bytes
  mapping : ResourceMapping

def namedKind (group kind registryPrefix apiBasePath : String) (namespaced : Bool) : NamedKind :=
  ⟨ascii group, ascii kind, ascii registryPrefix, ascii apiBasePath, namespaced⟩

/-- The cases of the switch of `GetResourceMappingByGVK`, in order. -/
def namedKinds : List NamedKind :=
  [ namedKind "" "Pod" "/registry/pods/" "/api/v1/namespaces/\x7bnamespace\x7d/pods" true,
    namedKind "" "Event" "/registry/events/" "/api/v1/namespaces/\x7bnamespace\x7d/events" true,
    namedKind "" "Secret" "/registry/secrets/" "/api/v1/namespaces/\x7bnamespace\x7d/secrets" true,
    namedKind "" "Namespace" "/registry/namespaces/" "/api/v1/namespaces" false,
    namedKind "apps" "ReplicaSet" "/registry/replicasets/"
      "/apis/apps/v1/namespaces/\x7bnamespace\x7d/replicasets" true,
    namedKind "" "ReplicationController" "/registry/replicationcontrollers/"
      "/api/v1/namespaces/\x7bnamespace\x7d/replicationcontrollers" true,
    namedKind "batch" "Job" "/registry/jobs/" "/apis/batch/v1/namespaces/\x7bnamespace\x7d/jobs" true,
    -- historically referred to as "minions" in the etcd registry
    namedKind "" "Node" "/registry/minions/" "/api/v1/nodes" false,
    namedKind "certificates.k8s.io" "CertificateSigningRequest" "/registry/certificatesigningrequests/"
      "/apis/certificates.k8s.io/v1/certificatesigningrequests" false,
    -- these are stored under the ungrouped registry prefix
    namedKind "rbac.authorization.k8s.io" "ClusterRole" "/registry/clusterroles/"
      "/apis/rbac.authorization.k8s.io/v1/clusterroles" false,
    namedKind "rbac.authorization.k8s.io" "ClusterRoleBinding" "/registry/clusterrolebindings/"
      "/apis/rbac.authorization.k8s.io/v1/clusterrolebindings" false ]

/-- `GetResourceMappingByGVK`: any other kind is taken to be namespaced, under its plural. -/
def getResourceMappingByGVK (t : Words) (gvk : GroupVersionKind) : ResourceMapping :=
  match namedKinds.find? fun n => gvk.group = n.group && gvk.kind = n.kind with
  | some n => n.mapping
  | none =>
    let plural := t.plural (t.toLower gvk.kind)
    let path := ascii "/namespaces/\x7bnamespace\x7d/"
    if gvk.group = [] then
      ⟨ascii "/registry/" ++ plural ++ ascii "/", ascii "/api/" ++ gvk.version ++ path ++ plural, true⟩
    else
      ⟨ascii "/registry/" ++ gvk.group ++ ascii "/" ++ plural ++ ascii "/",
        ascii "/apis/" ++ gvk.group ++ ascii "/" ++ gvk.version ++ path ++ plural, true⟩

/-! ## Objects -/

/-- `metav1.ObjectMeta`, as far as it is read. -/
structure ObjectMeta where
  name : Bytes
  ns : Bytes
  uid : Bytes
  labels : List (Bytes × Bytes)
  ownerReferences : List OwnerReference
  finalizers : List Bytes
deriving DecidableEq

/-- The Go types that `GetObjectByKey` chooses from. -/
inductive ObjectType
  | pod
  | event
  | secret
  | namespaceObject
  | replicaSet
  | replicationController
  | job
  | node
  | certificateSigningRequest
  | clusterRole
  | clusterRoleBinding
  | partialObjectMetadata
deriving DecidableEq

/-- The cases of the switch of `GetObjectByKey`, in order. -/
def keyTypes : List (Bytes × ObjectType) :=
  [ (ascii "/registry/pods/", .pod),
    (ascii "/registry/events/", .event),
    (ascii "/registry/secrets/", .secret),
    (ascii "/registry/namespaces/", .namespaceObject),
    (ascii "/registry/replicasets/", .replicaSet),
    (ascii "/registry/replicationcontrollers/", .replicationController),
    (ascii "/registry/jobs/", .job),
    (ascii "/registry/minions/", .node),
    (ascii "/registry/certificatesigningrequests/", .certificateSigningRequest),
    (ascii "/registry/clusterroles/", .clusterRole),
    (ascii "/registry/clusterrolebindings/", .clusterRoleBinding) ]

/-- `GetObjectByKey`: the type of the empty object that is returned. -/
def getObjectByKey (key : Bytes) : ObjectType :=
  match keyTypes.find? fun p => p.1.isPrefixOf key with
  | some p => p.2
  | none => .partialObjectMetadata

/-- The fields of a pod that are read. -/
structure PodFields where
  nodeName : Bytes
  restartPolicy : Bytes
  schedulerName : Bytes
  serviceAccountName : Bytes
  hostNetwork : Bool
  phase : Bytes
  podIP : Bytes
  nominatedNodeName : Bytes

/-- `corev1.ObjectReference`. -/
structure ObjectReference where
  kind : Bytes
  ns : Bytes
  name : Bytes
  uid : Bytes
  apiVersion : Bytes
  resourceVersion : Bytes
  fieldPath : Bytes

/-- The fields of an event that are read. -/
structure EventFields where
  involvedObject : ObjectReference
  reason : Bytes
  reportingController : Bytes
  type : Bytes

/-- A `runtime.Object` of a type that `GetObjectByKey` chooses, with what is read from it. -/
inductive RuntimeObject
  | pod (om : ObjectMeta) (fields : PodFields)
  | event (om : ObjectMeta) (fields : EventFields)
  | secret (om : ObjectMeta) (type : Bytes)
  | namespaceObject (om : ObjectMeta) (phase : Bytes)
  | replicaSet (om : ObjectMeta) (replicas : ℤ)
  | replicationController (om : ObjectMeta) (replicas : ℤ)
  | job (om : ObjectMeta) (succeeded : ℤ)
  | node (om : ObjectMeta) (unschedulable : Bool)
  | certificateSigningRequest (om : ObjectMeta) (signerName : Bytes)
  | clusterRole (om : ObjectMeta)
  | clusterRoleBinding (om : ObjectMeta)
  | partialObjectMetadata (om : ObjectMeta) (apiVersion kind : Bytes)

namespace RuntimeObject

def type : RuntimeObject → ObjectType
  | .pod .. => .pod
  | .event .. => .event
  | .secret .. => .secret
  | .namespaceObject .. => .namespaceObject
  | .replicaSet .. => .replicaSet
  | .replicationController .. => .replicationController
  | .job .. => .job
  | .node .. => .node
  | .certificateSigningRequest .. => .certificateSigningRequest
  | .clusterRole .. => .clusterRole
  | .clusterRoleBinding .. => .clusterRoleBinding
  | .partialObjectMetadata .. => .partialObjectMetadata

/-- The metadata of the object, which every type embeds. -/
def om : RuntimeObject → ObjectMeta
  | .pod om _ | .event om _ | .secret om _ | .namespaceObject om _ | .replicaSet om _
  | .replicationController om _ | .job om _ | .node om _ | .certificateSigningRequest om _
  | .clusterRole om | .clusterRoleBinding om | .partialObjectMetadata om _ _ => om

/-- The type switch of `GetUIDByObject`, `GetFinalizersByObject`, `GetOwnersByObject` and
`GetLabelsSetByObject`: ten cases that read the metadata, and `other` for the rest. -/
def switch {α : Type} (read : ObjectMeta → α) (other : α) : RuntimeObject → α
  | .pod om _ | .event om _ | .secret om _ | .namespaceObject om _ | .replicaSet om _
  | .replicationController om _ | .job om _ | .node om _ | .certificateSigningRequest om _
  | .partialObjectMetadata om _ _ => read om
  -- no case names these two
  | .clusterRole _ | .clusterRoleBinding _ => other

end RuntimeObject

def getUIDByObject (obj : RuntimeObject) : Bytes := obj.switch ObjectMeta.uid []

def getFinalizersByObject (obj : RuntimeObject) : List Bytes := obj.switch ObjectMeta.finalizers []

def getOwnersByObject (obj : RuntimeObject) : List OwnerReference := obj.switch ObjectMeta.ownerReferences []

def getLabelsSetByObject (obj : RuntimeObject) : List (Bytes × Bytes) := obj.switch ObjectMeta.labels []

/-! ## Fields -/

/-- `customResourceDefs`: the selectable fields under the text of version, group and plural. -/
abbrev CustomResourceDefs := OMap Bytes (List Bytes)

/-- The text that the fields of a custom resource are registered under. -/
def crdKey (version group plural : Bytes) : Bytes := version ++ ascii "." ++ group ++ ascii "/" ++ plural

/-- The JSON library: `oj.ParseString`, `jp.ParseString`, and `query.Get` with its results
printed by `%v`. -/
structure JsonPath where
  Doc : Type
  Query : Type
  parseDoc : Bytes → Option Doc
  parseQuery : Bytes → Option Query
  get : Query → Doc → List Bytes

/-- A literal of `fields.Set`: a later entry of one name would replace an earlier one. -/
def fieldsOf (l : List (String × Bytes)) : OMap Bytes Bytes :=
  l.foldl (fun fs p => fs.insert (ascii p.1) p.2) OMap.empty

/-- `%v` of a bool. -/
def showBool (b : Bool) : Bytes := if b then ascii "true" else ascii "false"

/-- `%d`. -/
def showInt (i : ℤ) : Bytes := ascii (toString i)

/-- The loop over the registered fields; `none` is the exit after a query that does not parse. -/
def customFields (j : JsonPath) (doc : j.Doc) : List Bytes → OMap Bytes Bytes → Option (OMap Bytes Bytes)
  | [], fs => some fs
  | field :: rest, fs =>
    match j.parseQuery (ascii "$." ++ field) with
    | none => none
    | some query =>
      match j.get query doc with
      | [] => customFields j doc rest fs
      | v :: _ => customFields j doc rest (fs.insert field v)

/-- The fields registered for the `apiVersion` and `kind` of an object. An `apiVersion` without
a slash has no group, and nothing is looked up for it. -/
def registeredFields (t : Words) (defs : CustomResourceDefs) (apiVersion kind : Bytes) :
    Option (List Bytes) :=
  match apiVersion.splitOn slash with
  | group :: version :: _ => defs.find? (crdKey version group (t.plural (t.toLower kind)))
  | _ => none

/-- `GetFieldsSetByObject`; `none` is the exit of the process (`logrus.Fatalf`). -/
def getFieldsSetByObject (t : Words) (j : JsonPath) (defs : CustomResourceDefs) (obj : RuntimeObject)
    (value : Bytes) : Option (OMap Bytes Bytes) :=
  let named := fun (om : ObjectMeta) (l : List (String × Bytes)) =>
    fieldsOf (("metadata.name", om.name) :: ("metadata.namespace", om.ns) :: l)
  match obj with
  | .pod om f => some <| named om
      [ ("spec.nodeName", f.nodeName), ("spec.restartPolicy", f.restartPolicy),
        ("spec.schedulerName", f.schedulerName), ("spec.serviceAccountName", f.serviceAccountName),
        ("spec.hostNetwork", showBool f.hostNetwork), ("status.phase", f.phase),
        ("status.podIP", f.podIP), ("status.nominatedNodeName", f.nominatedNodeName) ]
  | .event om f => some <| named om
      [ ("involvedObject.kind", f.involvedObject.kind), ("involvedObject.namespace", f.involvedObject.ns),
        ("involvedObject.name", f.involvedObject.name), ("involvedObject.uid", f.involvedObject.uid),
        ("involvedObject.apiVersion", f.involvedObject.apiVersion),
        ("involvedObject.resourceVersion", f.involvedObject.resourceVersion),
        ("involvedObject.fieldPath", f.involvedObject.fieldPath), ("reason", f.reason),
        ("reportingComponent", f.reportingController), ("source", f.reportingController),
        ("type", f.type) ]
  | .secret om type => some <| named om [("type", type)]
  | .namespaceObject om phase => some <| named om [("status.phase", phase)]
  | .replicaSet om replicas | .replicationController om replicas =>
    some <| named om [("status.replicas", showInt replicas)]
  | .job om succeeded => some <| named om [("status.successful", showInt succeeded)]
  | .node om unschedulable => some <| named om [("spec.unschedulable", showBool unschedulable)]
  | .certificateSigningRequest om signerName => some <| named om [("spec.signerName", signerName)]
  | .partialObjectMetadata om apiVersion kind =>
    match if om.name ≠ [] then registeredFields t defs apiVersion kind else none with
    | none => some (named om [])
    | some fields =>
      match j.parseDoc value with
      | none => none
      | some doc => customFields j doc fields (named om [])
  | .clusterRole _ | .clusterRoleBinding _ => some OMap.empty

/-! ## Decoding -/

/-- `decoder`, the universal deserializer of Kubernetes, asked to decode into an object of a type:
it fills that object, and every type takes the metadata that the value has. -/
structure ObjectDecoder where
  decode : ObjectType → Bytes → Option RuntimeObject
  metadata : Bytes → ObjectMeta
  type_decode : ∀ ty value obj, decode ty value = some obj → obj.type = ty
  om_decode : ∀ ty value obj, decode ty value = some obj → obj.om = metadata value

/-- `decodeObject`. -/
def ObjectDecoder.decodeObject (d : ObjectDecoder) (t : Words) (j : JsonPath) (defs : CustomResourceDefs)
    (key value : Bytes) : Except Err Meta :=
  match d.decode (getObjectByKey key) value with
  | none => .error .decode
  | some obj =>
    match getFieldsSetByObject t j defs obj value with
    | none => .error .crash
    | some fs => .ok
        { uid := getUIDByObject obj, labels := getLabelsSetByObject obj, fieldsSet := fs.entries,
          owners := getOwnersByObject obj, finalizers := getFinalizersByObject obj }

/-- The codec of `Generic.Insert` that decodes with `decodeObject`. An exit of the process leaves no
row behind, as an error does. -/
def ObjectDecoder.codec (d : ObjectDecoder) (t : Words) (j : JsonPath) (defs : CustomResourceDefs)
    (decode : Bytes → Option Object) (marshal : Object → Option Bytes) : Codec where
  decodeObject key value := (d.decodeObject t j defs key value).toOption
  decode := decode
  marshal := marshal

end Harikube
