import ContentQuery.Json.Parser
import ContentQuery.Json.Record
import ContentQuery.Platform.Policy
import ContentQuery.Platform.Schema

/-!
# Catalogs

A catalog describes the tables of a platform: their columns, their fulltext indexes, and the
control columns that drive visibility, language and workspaces.  It serves both as a schema and
as a policy.
-/

namespace ContentQuery

/-- The control columns of a table. -/
structure TableControl where
  deleted : Option String := none
  disabled : Option String := none
  startTime : Option String := none
  endTime : Option String := none
  group : Option String := none
  language : Option String := none
  /-- The column that points to the same record in the default language. -/
  languageParent : Option String := none
  /-- The table with the other languages, if they stand in a table of their own. -/
  languageTable : Option String := none
  versioned : Bool := false
deriving DecidableEq, Repr

structure TableSchema where
  /-- The columns in their order; a column may be without a type. -/
  columns : OrderedMap String (Option ColumnType) := ∅
  /-- The columns of each fulltext index. -/
  indexes : OrderedMap String (List String) := ∅
  control : TableControl := {}
deriving DecidableEq, Repr

structure Catalog where
  tables : OrderedMap String TableSchema := ∅
deriving DecidableEq, Repr

/-! ## Reading -/

namespace ColumnType

def ofJson? (j : Json) : Option ColumnType := do
  match ← Json.fields? [["type"], ["eval"]] j with
  | [some kind, eval] => do
      let kind ← kind.asText?
      let eval ← Json.decodeOr "" Json.asText? eval
      return { kind, eval }
  | _ => none

end ColumnType

namespace TableControl

def ofJson? (j : Json) : Option TableControl := do
  let column := Json.decodeOr none (Json.asOption? Json.asText?)
  match ← Json.fields?
      [["delete"], ["disabled"], ["starttime"], ["endtime"], ["fe_group"], ["language_field"],
        ["trans_orig_pointer_field"], ["trans_foreign_table"], ["versioning"]] j with
  | [deleted, disabled, start, stop, group, language, pointer, foreign, versioned] => do
      let deleted ← column deleted
      let disabled ← column disabled
      let startTime ← column start
      let endTime ← column stop
      let group ← column group
      let language ← column language
      let languageParent ← column pointer
      let languageTable ← column foreign
      let versioned ← Json.decodeOr false Json.asBool? versioned
      return { deleted, disabled, startTime, endTime, group, language, languageParent,
               languageTable, versioned }
  | _ => none

end TableControl

namespace TableSchema

def ofJson? (j : Json) : Option TableSchema := do
  match ← Json.fields? [["fields"], ["fulltext_indexes"], ["ctrl"]] j with
  | [columns, indexes, control] => do
      let columns ← Json.decodeOr ∅ (Json.asMap? (Json.asOption? ColumnType.ofJson?)) columns
      let indexes ← Json.decodeOr ∅ (Json.asMap? (Json.asList? Json.asText?)) indexes
      let control ← Json.decodeOr {} TableControl.ofJson? control
      return { columns, indexes, control }
  | _ => none

/-- The fulltext indexes with their columns qualified by the table and separated by commas. -/
def qualifiedIndexes (schema : TableSchema) (table : String) : OrderedMap String String :=
  schema.indexes.mapValues fun _ columns =>
    Text.join "," (columns.map fun column => table ++ "." ++ column)

end TableSchema

namespace Catalog

def ofJson? (j : Json) : Option Catalog := do
  match ← Json.fields? [["tables"]] j with
  | [some tables] => (Json.asMap? TableSchema.ofJson? tables).map fun tables => { tables }
  | _ => none

/-- Reads a catalog from a JSON text. -/
def ofText? (text : String) : Option Catalog :=
  (Json.readValue? text).bind ofJson?

def withTable (catalog : Catalog) (name : String) (schema : TableSchema) : Catalog :=
  { tables := catalog.tables.insert name schema }

def table? (catalog : Catalog) (name : String) : Option TableSchema :=
  catalog.tables.get? name

/-! ## Schema -/

def toSchema (catalog : Catalog) : Schema where
  columns table := ((catalog.table? table).map (·.columns.keys)).getD []
  fulltextIndexes table :=
    ((catalog.table? table).map (·.qualifiedIndexes table)).getD ∅
  columnType? table column := do
    let schema ← catalog.table? table
    (schema.columns.get? column).join

/-! ## Visibility -/

/-- The condition for records that are open to everyone or to one of the groups. -/
def groupCondition (table column : String) (groups : List Int) : String :=
  let field := table ++ "." ++ column
  "(" ++ Text.join " OR "
    ([field ++ "=''", field ++ " IS NULL", field ++ "='0'"] ++
      groups.map fun group => "FIND_IN_SET('" ++ Text.signed group ++ "'," ++ field ++ ")") ++ ")"

/-- The condition on the version of a record. -/
def versionPart (table : String) (context : RequestContext) : String :=
  if context.preview then
    "(" ++ table ++ ".t3ver_wsid=0 OR " ++ table ++ ".t3ver_wsid=" ++
      Text.decimal context.workspace ++ ") AND " ++ table ++ ".pid<>-1"
  else table ++ ".t3ver_state<=0 AND " ++ table ++ ".pid<>-1"

/-- The parts of the condition under which records of a table are visible. -/
def visibilityParts (control : TableControl) (table : String) (showHidden : Bool)
    (ignored : IgnoredFields) (context : RequestContext) : List String :=
  let now := Text.signed context.accessTime
  let part (column : Option String) (applies : Bool) (text : String → String) : List String :=
    match column with
    | some column => if applies then [text (table ++ "." ++ column)] else []
    | none => []
  part control.deleted true (· ++ "=0") ++
    (if control.versioned then [versionPart table context] else []) ++
    part control.disabled (!showHidden && !ignored.disabled) (· ++ "=0") ++
    part control.startTime (!ignored.startTime) (· ++ "<=" ++ now) ++
    part control.endTime (!ignored.endTime)
      (fun field => "(" ++ field ++ "=0 OR " ++ field ++ ">" ++ now ++ ")") ++
    (match control.group with
      | some column =>
          if ignored.group then [] else [groupCondition table column context.userGroups]
      | none => [])

/-- The control columns of a table that the catalog must describe. -/
def control (catalog : Catalog) (table : String) : Except PolicyError TableControl :=
  match catalog.table? table with
  | some schema => .ok schema.control
  | none => .error ⟨"Table " ++ table ++ " is not described in the catalog"⟩

def visibility (catalog : Catalog) (table : String) (showHidden : Bool) (ignored : IgnoredFields)
    (context : RequestContext) : Except PolicyError String := do
  let control ← catalog.control table
  return Text.join " AND " (visibilityParts control table showHidden ignored context)

/-! ## Language -/

def languageStorage (catalog : Catalog) (table : String) : LanguageStorage :=
  match catalog.table? table with
  | none => .none
  | some schema =>
      let control := schema.control
      match control.language, control.languageParent, control.languageTable with
      | _, _, some _ => .foreignTable
      | some _, some _, none => .sameTable
      | some language, none, none => .languageFlag language
      | none, _, none => .none

def languageCondition (catalog : Catalog) (table aliasName : String) (context : RequestContext) :
    Except PolicyError String := do
  let control ← catalog.control table
  match control.language, control.languageParent with
  | some language, some pointer =>
      let default := aliasName ++ "." ++ language ++ " IN (0,-1)"
      if context.language = 0 then return default
      else
        return default ++ " OR (" ++ aliasName ++ "." ++ language ++ " = '" ++
          Text.decimal context.language ++ "' AND " ++ aliasName ++ "." ++ pointer ++ " = '0')"
  | _, _ => throw ⟨"Table " ++ table ++ " is not translated in place"⟩

/-- Adds the required columns that are not there yet. -/
def complete (selected required : List String) : List String :=
  required.foldl (fun columns c => if c ∈ columns then columns else columns ++ [c]) selected

def overlayColumns (catalog : Catalog) (table : String) (selected : List String) :
    Except PolicyError (List String) := do
  let control ← catalog.control table
  match catalog.languageStorage table with
  | .sameTable => return complete selected (["uid", "pid"] ++ control.language.toList)
  | .foreignTable => return complete selected ["uid", "pid"]
  | .none | .languageFlag _ => throw ⟨"Table " ++ table ++ " has no translation overlays"⟩

/-! ## Workspaces -/

def isVersioned (catalog : Catalog) (table : String) : Bool :=
  ((catalog.table? table).map (·.control.versioned)).getD false

def notVersioned (table : String) : PolicyError :=
  ⟨"Table " ++ table ++ " is not versioned"⟩

def versionCondition (catalog : Catalog) (table aliasName : String) (direct : Bool)
    (context : RequestContext) : Except PolicyError String :=
  let workspace := Text.decimal context.workspace
  let inState (state : String) : String :=
    "(" ++ aliasName ++ ".t3ver_state = " ++ state ++ " AND " ++ aliasName ++ ".t3ver_wsid = " ++
      workspace ++ ")"
  if !catalog.isVersioned table then .error (notVersioned table)
  else if direct then .ok (aliasName ++ ".t3ver_wsid IN (0," ++ workspace ++ ")")
  else
    .ok (Text.join " OR "
      ["(" ++ aliasName ++ ".t3ver_state <= 0 AND " ++ aliasName ++ ".t3ver_oid = 0)",
        inState "0", inState "1", inState "3"])

def versionColumns (catalog : Catalog) (table : String) (selected : List String) :
    Except PolicyError (List String) :=
  if !catalog.isVersioned table then .error (notVersioned table)
  else .ok (complete selected ["uid", "pid", "t3ver_state"])

/-! ## Policy -/

def toPolicy (catalog : Catalog) : Policy where
  visibility := catalog.visibility
  languageStorage := catalog.languageStorage
  languageCondition := catalog.languageCondition
  overlayColumns := catalog.overlayColumns
  isVersioned := catalog.isVersioned
  versionCondition := catalog.versionCondition
  versionColumns := catalog.versionColumns

end Catalog
end ContentQuery
