import Harikube.Spec.Selectors
import Harikube.Template.Pieces

/-!
# The text of the selector conditions

`renderSelectorsWhere` (`pkg/drivers/generic/helpers.go`) builds the text of a condition and the
list of its arguments apart from each other. For PostgreSQL the placeholders of the text are
numbered afterwards.

The second part says which argument belongs to which placeholder: the conditions as they are in
`Spec/Selectors`, written as texts with holes.
-/

namespace Harikube

open Template (Piece)

/-- An argument of a statement. -/
inductive Arg
  | string (s : Bytes)
  | int (n : ℤ)
  | bool (b : Bool)
deriving DecidableEq

/-- `SelectorLookupSQL` of the drivers. -/
def Driver.selectorLookupSQL : Driver → Bytes
  | .sqlite => ascii "json_extract(value, '$.%s') LIKE CONCAT('%%', ?, '%%')"
  | .mysql => ascii "MATCH(value_text) AGAINST(? IN BOOLEAN MODE)"
  | .pgsql => ascii "(value::text) LIKE CONCAT('%%', ?::TEXT, '%%')"

/-- The drivers that `OpenDB` is told to number the parameters for. -/
def Driver.numbered : Driver → Bool
  | .sqlite => false
  | .mysql => false
  | .pgsql => true

namespace SelectorSql

/-! ## Rendering -/

def labelsSelect : Bytes :=
  ascii " AND %s IN (\n\t\tSELECT kine_id\n\t\tFROM kine_labels\n\t\tWHERE kine_name LIKE ? AND (%s)\n\t\tGROUP BY kine_id\n\t\tHAVING COUNT(kine_id) = ?\n\t)\n\t"

def fieldsSelect : Bytes :=
  ascii " AND %s IN (\n\t\tSELECT kine_id\n\t\tFROM kine_fields\n\t\tWHERE kine_name LIKE ? AND (%s)\n\t\tGROUP BY kine_id\n\t)\n\t"

/-- `fmt.Sprintf` for a format with the verbs `%s` and `%%`. -/
def sprintf : Bytes → List Bytes → Bytes
  | [], _ => []
  | [c], _ => [c]
  | c :: d :: f, args =>
    if c = 37 ∧ d = 115 then
      match args with
      | [] => ascii "%!s(MISSING)" ++ sprintf f []
      | a :: args => a ++ sprintf f args
    else if c = 37 ∧ d = 37 then 37 :: sprintf f args
    else c :: sprintf (d :: f) args

/-- `strings.TrimSuffix`. -/
def trimSuffix (s suffix : Bytes) : Bytes := if suffix.isSuffixOf s then s.take (s.length - suffix.length) else s

/-- `inGen`. -/
def inGen (l : ℕ) : Bytes := trimSuffix (List.replicate l (ascii "?,")).flatten (ascii ",")

/-- `strconv.Itoa`. -/
def itoa (n : ℕ) : Bytes := ascii (toString n)

/-- `replaceParamsToNumbers`. -/
def replaceParamsToNumbers (text : Bytes) (args : ℕ) : Bytes :=
  Template.replaceMarks 63 (fun n => 36 :: itoa n) (args + 1) text

/-- The cases of `renderLabelSelectorWhere`: what is appended to `wheres` and to `args`. -/
def labelCase (pattern : Bytes) (r : Requirement) : Bytes × List Arg :=
  match r.operator with
  | .doesNotExist =>
    (ascii "(kine_id NOT IN (SELECT kine_id FROM kine_labels WHERE kine_name LIKE ? AND name = ? GROUP BY kine_id))",
      [.string pattern, .string r.key])
  | .doubleEquals | .equals => (ascii "(name = ? AND value = ?)", [.string r.key, .string (r.values.headD [])])
  | .inSet =>
    (ascii "(name = ? AND value IN (" ++ inGen r.values.length ++ ascii "))", .string r.key :: r.values.map .string)
  | .notEquals => (ascii "(name = ? AND value != ?)", [.string r.key, .string (r.values.headD [])])
  | .notIn =>
    (ascii "(name = ? AND value NOT IN (" ++ inGen r.values.length ++ ascii "))",
      .string r.key :: r.values.map .string)
  | .keyExists => (ascii "(name IN (?))", [.string r.key])
  | .greaterThan => (ascii "(name = ? AND value > ?)", [.string r.key, .string (r.values.headD [])])
  | .lessThan => (ascii "(name = ? AND value < ?)", [.string r.key, .string (r.values.headD [])])

variable (p : SelectorParser)

/-- `renderLabelSelectorWhere`. -/
def renderLabelSelectorWhere (id pattern labelSelector : Bytes) (args : List Arg) (numbered : Bool) :
    Bytes × List Arg × Option Err :=
  if labelSelector = [] then ([], args, none)
  else
    match p.labels labelSelector with
    | none => ([], args, some .decode)
    | some reqs =>
      let argsN := args.length
      let (wheres, args) := reqs.foldl (fun (acc : List Bytes × List Arg) r =>
        (acc.1 ++ [(labelCase pattern r).1], acc.2 ++ (labelCase pattern r).2)) ([], args ++ [.string pattern])
      let args := args ++ [.int reqs.length]
      let text := sprintf labelsSelect [id, (ascii " OR ").intercalate wheres]
      (if numbered then replaceParamsToNumbers text argsN else text, args, none)

/-- The body of the loop of `renderFieldSelectorWhere`. An operator that is none of the three
leaves an argument without a condition; `fields.ParseSelector` makes no such requirement. -/
def fieldCase (selectorLookupSQL : Bytes) (r : FieldRequirement) : List Bytes × List Arg :=
  let fieldReplace := SelectorParser.contains selectorLookupSQL (ascii "%s")
  let fieldApend := selectorLookupSQL.count 63 > 1
  let field := underscored r.field
  let sl := if fieldReplace then sprintf selectorLookupSQL [field] else selectorLookupSQL
  let args : List Arg := (if ¬ fieldReplace ∧ fieldApend then [.string field] else []) ++ [.string r.value]
  match r.operator with
  | .doubleEquals | .equals => ([ascii "(" ++ sl ++ ascii ")"], args)
  | .notEquals => ([ascii "(NOT " ++ sl ++ ascii ")"], args)
  | _ => ([], args)

/-- `renderFieldSelectorWhere`. -/
def renderFieldSelectorWhere (id pattern fieldSelector : Bytes) (args : List Arg) (numbered : Bool)
    (selectorLookupSQL : Bytes) : Bytes × List Arg × Option Err :=
  if fieldSelector = [] then ([], args, none)
  else
    match p.fields fieldSelector with
    | none => ([], args, some .decode)
    | some reqs =>
      let argsN := args.length
      let (wheres, args) := reqs.foldl (fun (acc : List Bytes × List Arg) r =>
        (acc.1 ++ (fieldCase selectorLookupSQL r).1, acc.2 ++ (fieldCase selectorLookupSQL r).2))
        ([], args ++ [.string pattern])
      let text := sprintf fieldsSelect [id, (ascii " AND ").intercalate wheres]
      (if numbered then replaceParamsToNumbers text argsN else text, args, none)

/-- `renderSelectorsWhere`. `sql` is the query that the condition becomes part of. -/
def renderSelectorsWhere (sql key labelSelector fieldSelector : Bytes) (args : List Arg)
    (selectorLookupSQL : Bytes) : Bytes × List Arg × Option Err :=
  let id := ascii "id"
  let numbered := SelectorParser.contains sql (ascii "$")
  let pattern := SelectorParser.selectorPattern key
  match renderLabelSelectorWhere p id pattern labelSelector args numbered with
  | (_, args, some err) => ([], args, some err)
  | (labelsWhere, args, none) =>
    match renderFieldSelectorWhere p id pattern fieldSelector args numbered selectorLookupSQL with
    | (_, args, some err) => ([], args, some err)
    | (fieldsWhere, args, none) => (labelsWhere ++ fieldsWhere, args, none)

/-! ## What the placeholders stand for -/

/-- The `n`-th placeholder. -/
def mark (numbered : Bool) (n : ℕ) : Bytes := if numbered then 36 :: itoa n else [63]

def isDigit (c : Fin 256) : Bool := 48 ≤ c.val && c.val ≤ 57

/-- The placeholders in a text: the matches of `\?` or of `\$[0-9]+`, as the parameters of the
query are written. -/
def placeholders (numbered : Bool) (text : Bytes) : List Bytes :=
  if numbered then (Template.scanMarks 36 isDigit text).map fun ds => 36 :: ds
  else (text.filter fun c => c = 63).map fun c => [c]

/-- A text with arguments in its holes. -/
abbrev Clause := List (Piece (Fin 256) Arg)

def lit (s : String) : Piece (Fin 256) Arg := .text (ascii s)

def str (s : Bytes) : Piece (Fin 256) Arg := .hole (.string s)

/-- The values of `IN`. -/
def valueList (values : List Bytes) : Clause := Template.joined (ascii ",") (values.map fun v => [str v])

/-- An alternative with its arguments where they belong. -/
def labelClause : LabelWhere → Clause
  | .lacks pattern name =>
    [lit "(kine_id NOT IN (SELECT kine_id FROM kine_labels WHERE kine_name LIKE ", str pattern, lit " AND name = ",
      str name, lit " GROUP BY kine_id))"]
  | .equal name value => [lit "(name = ", str name, lit " AND value = ", str value, lit ")"]
  | .oneOf name values => [lit "(name = ", str name, lit " AND value IN ("] ++ valueList values ++ [lit "))"]
  | .notEqual name value => [lit "(name = ", str name, lit " AND value != ", str value, lit ")"]
  | .noneOf name values => [lit "(name = ", str name, lit " AND value NOT IN ("] ++ valueList values ++ [lit "))"]
  | .named name => [lit "(name IN (", str name, lit "))"]
  | .greater name value => [lit "(name = ", str name, lit " AND value > ", str value, lit ")"]
  | .less name value => [lit "(name = ", str name, lit " AND value < ", str value, lit ")"]

def labelsClause (q : LabelsSelect) : Clause :=
  [lit " AND id IN (\n\t\tSELECT kine_id\n\t\tFROM kine_labels\n\t\tWHERE kine_name LIKE ", str q.pattern, lit " AND ("] ++
    Template.joined (ascii " OR ") (q.wheres.map labelClause) ++
    [lit ")\n\t\tGROUP BY kine_id\n\t\tHAVING COUNT(kine_id) = ", .hole (.int q.count), lit "\n\t)\n\t"]

/-- The comparison of a field. Only SQLite's names the field, in the text. -/
def lookupClause (field value : Bytes) : Driver → Clause
  | .sqlite => [lit "json_extract(value, '$.", .text field, lit "') LIKE CONCAT('%', ", str value, lit ", '%')"]
  | .mysql => [lit "MATCH(value_text) AGAINST(", str value, lit " IN BOOLEAN MODE)"]
  | .pgsql => [lit "(value::text) LIKE CONCAT('%%', ", str value, lit "::TEXT, '%%')"]

def fieldClause (d : Driver) (w : FieldWhere) : Clause :=
  [lit (if w.negated then "(NOT " else "(")] ++ lookupClause w.field w.value d ++ [lit ")"]

def fieldsClause (d : Driver) (q : FieldsSelect) : Clause :=
  [lit " AND id IN (\n\t\tSELECT kine_id\n\t\tFROM kine_fields\n\t\tWHERE kine_name LIKE ", str q.pattern, lit " AND ("] ++
    Template.joined (ascii " AND ") (q.wheres.map (fieldClause d)) ++ [lit ")\n\t\tGROUP BY kine_id\n\t)\n\t"]

/-- The condition of both selectors. -/
def clause (d : Driver) (q : Option LabelsSelect × Option FieldsSelect) : Clause :=
  (q.1.map labelsClause).getD [] ++ (q.2.map (fieldsClause d)).getD []

end SelectorSql

end Harikube
