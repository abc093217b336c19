import ContentQuery.OrderedMap
import ContentQuery.Text

/-!
# Table schemas

What the platform knows about the columns of its tables.  A `Schema` answers by table name; an
unknown table has no columns and no indexes.
-/

namespace ContentQuery

/-- How a column is edited: its kind and its evaluation rules. -/
structure ColumnType where
  kind : String
  /-- Evaluation rules, separated by commas. -/
  eval : String
deriving DecidableEq, Repr

namespace ColumnType

/-- Rules under which an input column holds something other than text. -/
def nonTextRules : List String :=
  ["date", "datetime", "time", "timesec", "year", "num", "md5", "int", "double2"]

def rules (c : ColumnType) : List String :=
  Text.items ',' c.eval

/-- Whether the column holds text that differs from language to language. -/
def isText (c : ColumnType) : Bool :=
  if c.kind = "text" then true
  else if c.kind = "input" then !c.rules.any (· ∈ nonTextRules)
  else false

end ColumnType

structure Schema where
  /-- The columns of a table in their order. -/
  columns : String → List String
  /-- The fulltext indexes of a table, each with its qualified columns separated by commas. -/
  fulltextIndexes : String → OrderedMap String String
  /-- The type of a column, if it has one. -/
  columnType? : String → String → Option ColumnType

namespace Schema

/-- A schema that knows no table. -/
def empty : Schema where
  columns _ := []
  fulltextIndexes _ := ∅
  columnType? _ _ := none

/-- Whether a column holds text; a column without a type counts as text. -/
def isTextColumn (schema : Schema) (table column : String) : Bool :=
  match schema.columnType? table column with
  | some type => type.isText
  | none => true

end Schema
end ContentQuery
