import ContentQuery.Platform.Policy
import ContentQuery.Platform.Schema
import ContentQuery.Platform.Settings
import ContentQuery.Query.Basic

/-!
# Drafts

A draft is a query on its way to the database, together with what was found out about it: which
fields are selected from which table, where each result column comes from, which overlays the
caller must apply, and what went wrong without stopping the work.
-/

namespace ContentQuery

/-! ## Platforms -/

/-- Everything outside the query that decides how it is completed. -/
structure Platform where
  schema : Schema
  policy : Policy
  context : RequestContext
  settings : Settings

/-! ## Diagnostics -/

inductive Severity where
  | notice
  | warning
deriving DecidableEq, Repr

def Severity.name : Severity → String
  | .notice => "notice"
  | .warning => "warning"

/-- A problem that did not stop the work. -/
structure Diagnostic where
  severity : Severity
  title : String
  message : String
deriving DecidableEq, Repr

def Diagnostic.text (d : Diagnostic) : String :=
  d.title ++ ": " ++ d.message

/-! ## Result columns -/

/-- Where the value of a result column belongs. -/
structure FieldMapping where
  table : String
  field : String
  /-- Alias given in the query, without a table part. -/
  aliasName : Option String
deriving DecidableEq, Repr

/-- Where a result column comes from. -/
structure FieldOrigin where
  table : String
  tableAlias : String
  field : String
  mapping : FieldMapping
deriving DecidableEq, Repr

/-- The origin of a column that belongs where it comes from. -/
def FieldOrigin.plain (table tableAlias field : String) : FieldOrigin :=
  { table, tableAlias, field, mapping := { table := tableAlias, field, aliasName := none } }

/-! ## Selected fields -/

structure DraftField where
  name : String
  isCall : Bool
deriving DecidableEq, Repr

/-- The fields selected from one table of the query. -/
structure DraftTable where
  table : String
  aliasName : String
  fields : List DraftField
deriving DecidableEq, Repr

namespace DraftTable

def hasField (t : DraftTable) (name : String) : Bool :=
  t.fields.any (·.name == name)

/-- The names of the selected columns, calls left out. -/
def columns (t : DraftTable) : List String :=
  (t.fields.filter (!·.isCall)).map (·.name)

end DraftTable

/-! ## Drafts -/

structure Draft where
  query : Query := {}
  /-- The selected fields by table alias. -/
  tables : OrderedMap String DraftTable := ∅
  /-- The origins by result column. -/
  origins : OrderedMap String FieldOrigin := ∅
  /-- Per true table, whether the caller must overlay another language. -/
  overlays : OrderedMap String Bool := ∅
  /-- Per true table, whether the caller must overlay versions. -/
  versionOverlays : OrderedMap String Bool := ∅
  /-- Whether the database sorts; else the caller does. -/
  sortsInDatabase : Bool := true
  /-- The aliases found for the names asked for. -/
  resolved : OrderedMap String String := ∅
  diagnostics : List Diagnostic := []
deriving DecidableEq, Repr

namespace Draft

/-! ### Diagnostics -/

def report (d : Draft) (severity : Severity) (title message : String) : Draft :=
  { d with diagnostics := d.diagnostics ++ [{ severity, title, message }] }

def warn (d : Draft) (title message : String) : Draft :=
  d.report .warning title message

def notify (d : Draft) (title message : String) : Draft :=
  d.report .notice title message

def hasWarnings (d : Draft) : Bool :=
  d.diagnostics.any (·.severity == .warning)

/-! ### Conditions -/

/-- Adds a condition on a table: to the WHERE clause for the main table, to the ON clause for a
join. -/
def attach (d : Draft) (aliasName condition : String) : Draft :=
  if d.query.isMainAlias aliasName then { d with query := d.query.addCondition condition }
  else if aliasName ∈ d.query.subtableAliases then
    { d with query := d.query.addJoinCondition aliasName condition }
  else d

/-! ### Selected fields -/

/-- Records a field as selected from a table. -/
def noteField (d : Draft) (table aliasName : String) (field : DraftField) : Draft :=
  { d with
    tables := d.tables.upsert aliasName fun old =>
      let entry := old.getD { table, aliasName, fields := [] }
      { entry with fields := entry.fields ++ [field] } }

def hasField (d : Draft) (aliasName field : String) : Bool :=
  (d.tables.get? aliasName).any (·.hasField field)

/-- Selects a column under the given result column. -/
def select (d : Draft) (table aliasName field column : String) : Draft :=
  let expression := aliasName ++ "." ++ field
  let entry := if field = column then expression else expression ++ " AS " ++ column
  let d := { d with query := { d.query with selectList := d.query.selectList ++ [entry] } }
  let d := d.noteField table aliasName { name := field, isCall := false }
  { d with origins := d.origins.insert column (.plain table aliasName field) }

/-- Selects a column that was not asked for, under the result column that is usual for it. -/
def selectExtra (d : Draft) (table aliasName field : String) : Draft :=
  d.select table aliasName field
    (if d.query.isMainAlias aliasName then field else aliasName ++ "$" ++ field)

/-! ### Answers -/

/-- The origin of a result column, with the alias it was given in the query. -/
def origin? (d : Draft) (column : String) : Option FieldOrigin :=
  (d.origins.get? column).map fun origin =>
    match d.query.fieldAlias? origin.tableAlias origin.field with
    | some aliasName =>
        let bare := ((Text.splitOnce? '.' aliasName).map Prod.snd).getD aliasName
        { origin with mapping := { origin.mapping with aliasName := some bare } }
    | none => origin

def hasOrdering (d : Draft) : Bool :=
  !d.query.orderFields.isEmpty

def needsLanguageOverlay (d : Draft) (table : String) : Bool :=
  (d.overlays.get? table).getD false

def needsVersionOverlay (d : Draft) (table : String) : Bool :=
  (d.versionOverlays.get? table).getD false

/-- The alias of the first join with selected fields, if it is an inner join. -/
def innerFirstJoin? (d : Draft) : Option String :=
  ((d.query.joins.values.find? fun join => d.tables.contains join.aliasName).filter
    fun join => join.kind == .inner).map (·.aliasName)

/-- The greatest number of rows to fetch from a join. -/
def rowLimit? (d : Draft) (aliasName : String) : Option Nat :=
  (d.query.joins.get? aliasName).bind (·.rowLimit)

def setLimit (d : Draft) (limit : Nat) : Draft :=
  { d with query := { d.query with limit := some limit } }

def setOffset (d : Draft) (offset : Nat) : Draft :=
  { d with query := { d.query with offset := some offset } }

end Draft
end ContentQuery
