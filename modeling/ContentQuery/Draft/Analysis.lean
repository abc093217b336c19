import ContentQuery.Draft.Basic
import ContentQuery.Query.Parser

/-!
# Reading a query into a draft

After a statement is read, every entry of its SELECT list gets its result column, the base fields
are added, and fields selected twice are reported.
-/

namespace ContentQuery
namespace Draft

/-! ## Result columns -/

/-- The result column of an entry, and the place its alias moves it to.  Fields of the main table
keep their name; fields of joins go under `table$field`.  An alias with a dot names the table and
field it moves to. -/
def resultColumn (mainAlias : String) (f : SelectField) : String × Option (String × String) :=
  let isMain := f.tableAlias == mainAlias
  match f.aliasName with
  | none => (if isMain then f.field else f.tableAlias ++ "$" ++ f.field, none)
  | some aliasName =>
      match Text.splitOnce? '.' aliasName with
      | some (table, field) => (table ++ "$" ++ field, some (table, field))
      | none =>
          if isMain then (aliasName, some (f.tableAlias, aliasName))
          else (f.tableAlias ++ "$" ++ aliasName, none)

/-- The origin of an entry that may be mapped to another place. -/
def originOf (f : SelectField) (place : Option (String × String)) : FieldOrigin :=
  let origin := FieldOrigin.plain f.table f.tableAlias f.field
  match place with
  | some (table, field) => { origin with mapping := { origin.mapping with table, field } }
  | none => origin

/-- The final text of an entry. -/
def entryText (mainAlias : String) (f : SelectField) : String :=
  if f.tableAlias ≠ mainAlias ∨ f.aliasName.isSome then
    f.expression ++ " AS " ++ (resultColumn mainAlias f).1
  else f.expression

/-- Registers an entry of the SELECT list. -/
def analyzeField (d : Draft) (f : SelectField) : Draft :=
  let (column, place) := resultColumn d.query.mainAlias f
  let d := d.noteField f.table f.tableAlias { name := f.field, isCall := f.isCall }
  { d with origins := d.origins.insert column (originOf f place) }

/-- Registers every entry and writes the final SELECT list. -/
def analyze (d : Draft) : Draft :=
  let analyzed := d.query.select.foldl analyzeField d
  { analyzed with
    query := { d.query with selectList := d.query.select.map (entryText d.query.mainAlias) } }

/-! ## Base fields -/

/-- Selects `field` where a table has it and the query does not. -/
def addBaseField (p : Platform) (aliasName field : String) (present : Bool) (d : Draft) : Draft :=
  let table := d.query.tableOf aliasName
  if !present && field ∈ p.schema.columns table then d.selectExtra table aliasName field else d

/-- Adds `uid` and `pid` for every table that lacks them. -/
def addBaseFields (p : Platform) (d : Draft) : Draft :=
  d.query.baseFields.entries.foldl
    (fun d (aliasName, present) =>
      addBaseField p aliasName "pid" present.pid (addBaseField p aliasName "uid" present.uid d))
    d

/-- Whether a DISTINCT query selects the `uid` of its main table, under that name or under the
name of an alias of the table. -/
def selectsMainUid (d : Draft) : Bool :=
  let aliases := d.query.tableOfAlias.entries.filter fun e => e.2 == d.query.mainTable
  let columns :=
    "uid" :: (d.query.mainAlias ++ "$uid") :: aliases.map fun e => e.1 ++ "$uid"
  columns.any fun column =>
    (d.origins.get? column).any fun origin => origin.mapping.field == "uid"

/-! ## Fields selected twice -/

/-- The result columns of each field of each table. -/
def columnsPerField (d : Draft) : OrderedMap String (OrderedMap String (List String)) :=
  d.origins.entries.foldl
    (fun tables (column, origin) =>
      tables.upsert origin.tableAlias fun fields =>
        (fields.getD ∅).upsert origin.field fun columns => columns.getD [] ++ [column])
    ∅

/-- A line for every field that is selected more than once. -/
def duplicateLines (d : Draft) : List String :=
  d.columnsPerField.entries.flatMap fun (table, fields) =>
    (fields.entries.filter fun e => 1 < e.2.length).map fun (field, columns) =>
      "In table " ++ table ++ ", duplicates for " ++ field ++ " as: " ++ Text.join "," columns

/-! ## Reading -/

/-- A fresh draft of a query. -/
def ofQuery (q : Query) : Draft :=
  { query := q }

/-- Puts a query in place of the present one and clears what was found out about that. -/
def reset (d : Draft) (q : Query) : Draft :=
  { d with
    query := q
    tables := ∅
    origins := ∅
    overlays := ∅
    versionOverlays := ∅
    resolved := ∅
    sortsInDatabase := true
    diagnostics := [] }

/-- Nothing is left out: whatever a draft held, after a reset it is as good as new. -/
@[simp] theorem reset_eq_ofQuery (d : Draft) (q : Query) : d.reset q = ofQuery q :=
  rfl

/-- Reports the fields selected twice; the warning is empty if there are none. -/
def warnDuplicates (d : Draft) : Draft × String :=
  match d.duplicateLines with
  | [] => (d, "")
  | line :: lines =>
      let warning := "Duplicate fields in query: " ++ Text.join " / " (line :: lines)
      (d.warn "Duplicate fields" warning, warning)

/-- Reads an editor's text in place of the present query and answers with a warning, which is empty
if there is nothing to warn of.  A text that is no statement leaves the draft as it was. -/
def parse (p : Platform) (text : String) (d : Draft) : Draft × Except QueryError String :=
  match Query.parse p.schema (prepareText text) with
  | .error e => (d, .error e)
  | .ok q =>
      let d := (d.reset q).analyze
      if q.distinct && !d.selectsMainUid then (d, .error .missingUid)
      else
        let d := if q.distinct then d else addBaseFields p d
        let (d, warning) := d.warnDuplicates
        (d, .ok warning)

end Draft
end ContentQuery
