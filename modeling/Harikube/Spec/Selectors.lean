import Harikube.Spec.Transaction

/-!
# Label and field selectors

A selector is rendered to a condition of the list queries
(`pkg/drivers/generic/helpers.go`), evaluated over the tables `kine_labels` and
`kine_fields` that `InsertMetadata` fills, and it is evaluated on the events of a watch
(`pkg/logstructured/sqllog/helpers.go`). The parsers of selectors and their own meaning
(`Requirement.matches`) belong to Kubernetes: the parsers are a parameter, the meaning is
what the two are compared with. The SQL is SQLite's.
-/

namespace Harikube

open Sorted

/-! ## Kubernetes -/

/-- `selection.Operator`. -/
inductive Operator
  | doesNotExist
  | equals
  | doubleEquals
  | inSet
  | notEquals
  | notIn
  | keyExists
  | greaterThan
  | lessThan
deriving DecidableEq

/-- The values that `labels.NewRequirement` accepts for an operator. -/
def Operator.takes : Operator → List Bytes → Bool
  | .doesNotExist, values => values = []
  | .keyExists, values => values = []
  | .equals, values => values.length = 1
  | .doubleEquals, values => values.length = 1
  | .notEquals, values => values.length = 1
  | .inSet, values => values ≠ []
  | .notIn, values => values ≠ []
  | .greaterThan, [v] => v ≠ [] && v.all (fun c => 48 ≤ c.val && c.val ≤ 57) && (parseInt64 v).isSome
  | .lessThan, [v] => v ≠ [] && v.all (fun c => 48 ≤ c.val && c.val ≤ 57) && (parseInt64 v).isSome
  | _, _ => false

/-- `labels.Requirement`. A label value has no sign, so the value of a comparison is a
string of digits. -/
structure Requirement where
  key : Bytes
  operator : Operator
  values : List Bytes
  valid : operator.takes values = true
deriving DecidableEq

/-- `Requirement.Matches`; `labels` is `Get` of a label set. -/
def Requirement.matches (r : Requirement) (labels : Bytes → Option Bytes) : Bool :=
  let compares (f : ℤ → ℤ → Bool) : Bool :=
    match (labels r.key).bind parseInt64, (r.values.head?).bind parseInt64 with
    | some a, some b => f a b
    | _, _ => false
  match r.operator with
  | .inSet | .equals | .doubleEquals => (labels r.key).any fun v => v ∈ r.values
  | .notIn | .notEquals => (labels r.key).all fun v => v ∉ r.values
  | .keyExists => (labels r.key).isSome
  | .doesNotExist => (labels r.key).isNone
  | .greaterThan => compares fun a b => a > b
  | .lessThan => compares fun a b => a < b

/-- `fields.Requirement`. -/
structure FieldRequirement where
  field : Bytes
  operator : Operator
  value : Bytes
  valid : operator = .equals ∨ operator = .doubleEquals ∨ operator = .notEquals
deriving DecidableEq

def FieldRequirement.negated (r : FieldRequirement) : Bool := r.operator = .notEquals

/-- `hasTerm.Matches` and `notHasTerm.Matches`: a missing field reads as empty. -/
def FieldRequirement.matches (r : FieldRequirement) (fieldsSet : List (Bytes × Bytes)) : Bool :=
  if r.negated then (fieldsSet.lookup r.field).getD [] ≠ r.value
  else (fieldsSet.lookup r.field).getD [] = r.value

/-- `labels.Parse` and `fields.ParseSelector`: the requirements, `none` for an error. The
empty text is the selector of everything. -/
structure SelectorParser where
  labels : Bytes → Option (List Requirement)
  fields : Bytes → Option (List FieldRequirement)
  labels_nil : labels [] = some []
  fields_nil : fields [] = some []

/-! ## SQLite -/

def lower (c : Fin 256) : Fin 256 := if 65 ≤ c.val ∧ c.val ≤ 90 then c + 32 else c

/-- What is left of a text from each of its characters on: a byte from 0xC0 on takes the
continuation bytes after it. `lead` is whether such a byte stands before the text. -/
def rests : (lead : Bool) → Bytes → List Bytes
  | _, [] => [[]]
  | lead, b :: s =>
    if lead && 128 ≤ b.val && b.val < 192 then rests true s else (b :: s) :: rests (192 ≤ b.val) s

/-- `LIKE` on characters: `%` is any text, `_` any character, and an ASCII letter is matched
without regard to case. -/
def likeChars : Bytes → Bytes → Bool
  | [], s => s.isEmpty
  | c :: p, s =>
    if c = 37 then (rests false s).any (likeChars p)
    else if c = 95 then ((rests false s)[1]?).any (likeChars p)
    else
      match s with
      | [] => false
      | d :: s => lower c = lower d && likeChars p s

/-- `s LIKE pattern`. Both are UTF-8 texts that end at a zero byte. -/
def like (pattern s : Bytes) : Bool := likeChars (pattern.takeWhile (· ≠ 0)) (s.takeWhile (· ≠ 0))

/-- The names that stand in a JSON path without quotes. -/
def plainLabel (name : Bytes) : Bool :=
  name ≠ [] && name.all fun c =>
    (48 ≤ c.val && c.val ≤ 57) || (65 ≤ c.val && c.val ≤ 90) || (97 ≤ c.val && c.val ≤ 122) ||
      c.val = 95 || c.val = 45

/-- `json_extract(value, '$.name')` on an object of strings: NULL, and also an error, are
`none`. -/
structure Sqlite where
  jsonExtract : OMap Bytes Bytes → Bytes → Option Bytes
  member : ∀ doc name, plainLabel name = true → jsonExtract doc name = doc.find? name

/-! ## The tables -/

/-- A row of `kine_labels`. -/
structure LabelRow where
  kineId : ℤ
  kineName : Bytes
  name : Bytes
  value : Bytes
deriving DecidableEq

/-- A row of `kine_fields`. -/
structure FieldRow where
  kineId : ℤ
  kineName : Bytes
  value : OMap Bytes Bytes

/-- The rows of `kine_labels` for an object. -/
def labelRows (id : ℤ) (key : Bytes) (labels : List (Bytes × Bytes)) : List LabelRow :=
  labels.map fun l => ⟨id, key, l.1, l.2⟩

/-- A stored object. Its labels are a map. -/
structure Labelled where
  id : ℤ
  key : Bytes
  labels : List (Bytes × Bytes)
  nodup : (labels.map Prod.fst).Nodup

/-- `kine_labels` for the stored objects. -/
def labelTable (objects : List Labelled) : List LabelRow := objects.flatMap fun o => labelRows o.id o.key o.labels

/-- `strings.ReplaceAll(field, ".", "_")`. -/
def underscored (field : Bytes) : Bytes := field.map fun c => if c = 46 then 95 else c

/-- `fieldsMap`, with the fields in the order that Go ranges over the map. -/
def fieldsMap (fieldsSet : List (Bytes × Bytes)) : OMap Bytes Bytes :=
  fieldsSet.foldl (fun doc f => doc.insert (underscored f.1) f.2) OMap.empty

/-- The row of `kine_fields` for an object, if it has fields. -/
def fieldRows (id : ℤ) (key : Bytes) (fieldsSet : List (Bytes × Bytes)) : List FieldRow :=
  if fieldsSet ≠ [] then [⟨id, key, fieldsMap fieldsSet⟩] else []

/-! ## The conditions of a list query -/

/-- One alternative of `labelsSelect`. -/
inductive LabelWhere
  | lacks (pattern name : Bytes)
  | equal (name value : Bytes)
  | oneOf (name : Bytes) (values : List Bytes)
  | notEqual (name value : Bytes)
  | noneOf (name : Bytes) (values : List Bytes)
  | named (name : Bytes)
  | greater (name value : Bytes)
  | less (name value : Bytes)

/-- `labelsSelect` with its arguments: the ids whose rows under `pattern` that satisfy one of
the alternatives are `count` many. -/
structure LabelsSelect where
  pattern : Bytes
  wheres : List LabelWhere
  count : ℕ

/-- One conjunct of `fieldsSelect`. -/
structure FieldWhere where
  negated : Bool
  field : Bytes
  value : Bytes

/-- `fieldsSelect` with its arguments. -/
structure FieldsSelect where
  pattern : Bytes
  wheres : List FieldWhere

/-- A row of `kine_labels` satisfies an alternative. -/
def LabelWhere.holds (rows : List LabelRow) (x : LabelRow) : LabelWhere → Bool
  | lacks pattern name => rows.all fun y => !(y.kineId = x.kineId && like pattern y.kineName && y.name = name)
  | equal name value => x.name = name && x.value = value
  | oneOf name values => x.name = name && x.value ∈ values
  | notEqual name value => x.name = name && x.value ≠ value
  | noneOf name values => x.name = name && x.value ∉ values
  | named name => x.name = name
  | greater name value => x.name = name && value < x.value
  | less name value => x.name = name && x.value < value

/-- The rows of an id that the subquery counts. -/
def LabelsSelect.counted (q : LabelsSelect) (rows : List LabelRow) (id : ℤ) : List LabelRow :=
  rows.filter fun x => x.kineId = id && like q.pattern x.kineName && q.wheres.any (LabelWhere.holds rows x)

/-- `id IN (labelsSelect)`. Without alternatives the statement is no SQL. -/
def LabelsSelect.selects (q : LabelsSelect) (rows : List LabelRow) (id : ℤ) : Option Bool :=
  if q.wheres = [] then none else some ((q.counted rows id).length = q.count)

/-- The negation of NULL is NULL, so neither selects. -/
def FieldWhere.holds (db : Sqlite) (x : FieldRow) (w : FieldWhere) : Bool :=
  (db.jsonExtract x.value w.field).any fun text => like ([37] ++ w.value ++ [37]) text != w.negated

/-- `id IN (fieldsSelect)`. -/
def FieldsSelect.selects (db : Sqlite) (q : FieldsSelect) (rows : List FieldRow) (id : ℤ) : Option Bool :=
  if q.wheres = [] then none
  else some (rows.any fun x => x.kineId = id && like q.pattern x.kineName && q.wheres.all (FieldWhere.holds db x))

/-! ## Rendering -/

/-- The alternative for a requirement. -/
def renderRequirement (pattern : Bytes) (r : Requirement) : LabelWhere :=
  match r.operator with
  | .doesNotExist => .lacks pattern r.key
  | .doubleEquals | .equals => .equal r.key (r.values.headD [])
  | .inSet => .oneOf r.key r.values
  | .notEquals => .notEqual r.key (r.values.headD [])
  | .notIn => .noneOf r.key r.values
  | .keyExists => .named r.key
  | .greaterThan => .greater r.key (r.values.headD [])
  | .lessThan => .less r.key (r.values.headD [])

/-- The comparison of a label's value in an alternative. -/
def Requirement.sqlHolds (r : Requirement) (v : Bytes) : Bool :=
  match r.operator with
  | .doesNotExist => false
  | .doubleEquals | .equals => v = r.values.headD []
  | .inSet => v ∈ r.values
  | .notEquals => v ≠ r.values.headD []
  | .notIn => v ∉ r.values
  | .keyExists => true
  | .greaterThan => r.values.headD [] < v
  | .lessThan => v < r.values.headD []

namespace SelectorParser

variable (p : SelectorParser)

/-- `renderLabelSelectorWhere`: no condition for an empty selector. -/
def renderLabelSelectorWhere (pattern labelSelector : Bytes) : Except Err (Option LabelsSelect) :=
  if labelSelector = [] then .ok none
  else
    match p.labels labelSelector with
    | none => .error .decode
    | some reqs => .ok (some ⟨pattern, reqs.map (renderRequirement pattern), reqs.length⟩)

/-- `renderFieldSelectorWhere`. -/
def renderFieldSelectorWhere (pattern fieldSelector : Bytes) : Except Err (Option FieldsSelect) :=
  if fieldSelector = [] then .ok none
  else
    match p.fields fieldSelector with
    | none => .error .decode
    | some reqs => .ok (some ⟨pattern, reqs.map fun r => ⟨r.negated, underscored r.field, r.value⟩⟩)

/-- The rows that the condition for a label selector leaves: all if there is none, and none
at all if the statement fails. -/
def labelsSelected (pattern labelSelector : Bytes) (rows : List LabelRow) (id : ℤ) : Bool :=
  match p.renderLabelSelectorWhere pattern labelSelector with
  | .error _ => false
  | .ok none => true
  | .ok (some q) => (q.selects rows id).getD false

/-- The rows that the condition for a field selector leaves. -/
def fieldsSelected (db : Sqlite) (pattern fieldSelector : Bytes) (rows : List FieldRow) (id : ℤ) : Bool :=
  match p.renderFieldSelectorWhere pattern fieldSelector with
  | .error _ => false
  | .ok none => true
  | .ok (some q) => (q.selects db rows id).getD false

/-- The pattern that `renderSelectorsWhere` makes of a key. -/
def selectorPattern (key : Bytes) : Bytes := if key.getLast? = some 37 then key else key ++ [37]

/-- `renderSelectorsWhere`. -/
def renderSelectorsWhere (key labelSelector fieldSelector : Bytes) :
    Except Err (Option LabelsSelect × Option FieldsSelect) :=
  match p.renderLabelSelectorWhere (selectorPattern key) labelSelector with
  | .error err => .error err
  | .ok labels =>
    match p.renderFieldSelectorWhere (selectorPattern key) fieldSelector with
    | .error err => .error err
    | .ok fields => .ok (labels, fields)

/-! ## The events of a watch -/

/-- `strings.Contains`. -/
def contains (s t : Bytes) : Bool := s.tails.any fun u => t.isPrefixOf u

/-- The comparison of a field of an event. -/
def fieldMatches (fieldsSet : List (Bytes × Bytes)) (r : FieldRequirement) : Bool :=
  let value := (fieldsSet.lookup r.field).getD []
  match r.operator with
  | .doubleEquals | .equals => contains value r.value
  | .notEquals => !contains value r.value
  | _ => false

/-- `filterEventBySelectors`. A selector that does not parse selects everything. -/
def filterEventBySelectors (c : Codec) (labelSelector fieldSelector : Bytes) (kv : KeyValue) : Bool :=
  if kv.value = [] ∨ labelSelector = [] ∧ fieldSelector = [] then true
  else
    match c.decodeObject kv.key kv.value with
    | none => true
    | some m =>
      let ls := if labelSelector ≠ [] then (p.labels labelSelector).getD [] else []
      if ¬ ls.all fun r => r.matches fun k => m.labels.lookup k then false
      else
        let fs := if fieldSelector ≠ [] then (p.fields fieldSelector).getD [] else []
        fs.length = (fs.filter (fieldMatches m.fieldsSet)).length

end SelectorParser

/-! ## Lists -/

/-- The SQL drivers. -/
inductive Driver
  | sqlite
  | mysql
  | pgsql
deriving DecidableEq

/-- What takes the place of a zero byte at the end of a start key. -/
def Driver.zero : Driver → Fin 256
  | .sqlite => 0
  | .mysql => 35
  | .pgsql => 26

/-- `TranslateStartKey`. -/
def Driver.translateStartKey (d : Driver) (startKey : Bytes) : Bytes :=
  if startKey.getLast? = some 0 then startKey.dropLast ++ [d.zero] else startKey

/-- The tables that a list reads. The rows of an id in the other two have the name of its
row in `kine`. -/
structure SelectorDb where
  kine : Kine
  labels : List LabelRow
  fields : List FieldRow
  labels_name : ∀ l ∈ labels, ∀ x ∈ kine.rows, x.id = l.kineId → l.kineName = x.name
  fields_name : ∀ f ∈ fields, ∀ x ∈ kine.rows, x.id = f.kineId → f.kineName = x.name

namespace SelectorDb

variable (s : SelectorDb) (p : SelectorParser) (db : Sqlite)

/-- The condition of the selectors on a row, for a list that starts at `key`. -/
def condition (key labelSelector fieldSelector : Bytes) : Except Err (Row → Bool) :=
  if labelSelector = [] ∧ fieldSelector = [] then .ok fun _ => true
  else
    match p.renderSelectorsWhere key labelSelector fieldSelector with
    | .error err => .error err
    | .ok (labels, fields) =>
      -- an empty parenthesis is no SQL
      if (labels.any fun q => q.wheres.isEmpty) || (fields.any fun q => q.wheres.isEmpty) then .error .database
      else .ok fun x =>
        (labels.all fun q => (q.selects s.labels x.id).getD false) &&
          (fields.all fun q => (q.selects db s.fields x.id).getD false)

/-- `SQLLog.List` over `Generic.ListCurrent` and `Generic.List`: the rows. -/
def list (d : Driver) (key rangeEnd : Bytes) (limit revision : ℤ) (includeDeleted : Bool)
    (labelSelector fieldSelector : Bytes) : Except Err (List Row) :=
  let key := d.translateStartKey key
  if revision = 0 ∧ rangeEnd = [] then .ok (s.kine.getSingle key includeDeleted)
  else
    match s.condition p db key labelSelector fieldSelector with
    | .error err => .error err
    | .ok cond => .ok (SqlLog.listRows s.kine key rangeEnd limit revision includeDeleted cond)

/-- A list page by page, `n` rows each, until a page is not full: each page starts at the
last key before it with a zero byte. -/
def pages (d : Driver) (n : ℕ) (rangeEnd : Bytes) (revision : ℤ) (includeDeleted : Bool)
    (labelSelector fieldSelector : Bytes) : ℕ → Bytes → Option (Except Err (List Row))
  | 0, _ => none
  | fuel + 1, key =>
    match s.list p db d key rangeEnd n revision includeDeleted labelSelector fieldSelector with
    | .error err => some (.error err)
    | .ok page =>
      if page.length < n then some (.ok page)
      else
        match page.getLast? with
        | none => some (.ok page)
        | some last =>
          (pages d n rangeEnd revision includeDeleted labelSelector fieldSelector fuel (last.name ++ [0])).map fun rest =>
            rest.map (page ++ ·)

end SelectorDb

end Harikube
