import ContentQuery.OrderedMap
import ContentQuery.Text

/-!
# Queries

The structured form of a SELECT statement: what is selected, from which table and joins, under
which conditions, in which order.  Next to the clauses a query keeps what is known about its table
aliases, its base fields and its field aliases.
-/

namespace ContentQuery

/-! ## Tables and joins -/

/-- A table under an alias. -/
structure TableRef where
  table : String
  aliasName : String
deriving DecidableEq, Repr, Inhabited

inductive JoinKind where
  | inner
  | left
  | right
deriving DecidableEq, Repr

def JoinKind.word : JoinKind → String
  | .inner => "INNER"
  | .left => "LEFT"
  | .right => "RIGHT"

structure Join where
  kind : JoinKind
  table : String
  aliasName : String
  /-- The text after ON, without the row limit. -/
  on : String
  /-- Greatest number of related rows to fetch. -/
  rowLimit : Option Nat
deriving DecidableEq, Repr

/-- A join without a condition. -/
def Join.bare (kind : JoinKind) (ref : TableRef) : Join :=
  { kind, table := ref.table, aliasName := ref.aliasName, on := "", rowLimit := none }

/-! ## Selected and ordering fields -/

/-- One entry of the SELECT list as written. -/
structure SelectField where
  /-- True name of the table. -/
  table : String
  tableAlias : String
  /-- Column name, or the whole text of a function call. -/
  field : String
  aliasName : Option String
  isCall : Bool
deriving DecidableEq, Repr

namespace SelectField

/-- The entry without its alias. -/
def expression (f : SelectField) : String :=
  if f.isCall then f.field else f.tableAlias ++ "." ++ f.field

def text (f : SelectField) : String :=
  match f.aliasName with
  | some aliasName => f.expression ++ " AS " ++ aliasName
  | none => f.expression

/-- The name under which the value is asked for: the alias, or else the field. -/
def resultName (f : SelectField) : String :=
  f.aliasName.getD f.field

end SelectField

/-- Where rows are to be sorted. -/
inductive OrderEngine where
  /-- In the database. -/
  | source
  /-- By whoever fetches the rows. -/
  | provider
deriving DecidableEq, Repr

structure OrderField where
  field : String
  direction : String
  engine : Option OrderEngine
  /-- Column name, where `field` was replaced by the alias it is selected under. -/
  aliasName : Option String
deriving DecidableEq, Repr

/-- Whether the base fields of a table are among the selected ones. -/
structure BaseFields where
  uid : Bool
  pid : Bool
deriving DecidableEq, Repr, Inhabited

/-- The base fields that a result name adds. -/
def BaseFields.note (b : BaseFields) (name : String) : BaseFields :=
  { uid := b.uid || name == "uid", pid := b.pid || name == "pid" }

/-! ## Queries -/

structure Query where
  distinct : Bool := false
  /-- The entries of the SELECT list as read. -/
  select : List SelectField := []
  /-- The final entries; while there are none, `select` is written instead. -/
  selectList : List String := []
  source : TableRef := ⟨"", ""⟩
  /-- The joins by alias. -/
  joins : OrderedMap String Join := ∅
  /-- The fragments of the WHERE clause, to be joined by AND. -/
  conditions : List String := []
  groupBy : List String := []
  orderBy : List String := []
  limit : Option Nat := none
  offset : Option Nat := none
  mainAlias : String := ""
  tableOfAlias : OrderedMap String String := ∅
  /-- The aliases of the joins, each once. -/
  subtableAliases : List String := []
  baseFields : OrderedMap String BaseFields := ∅
  orderFields : List OrderField := []
  /-- Per table alias, the fields selected under an alias, with that alias. -/
  fieldAliases : OrderedMap String (OrderedMap String String) := ∅
  /-- The expression behind each alias of the SELECT list. -/
  aliasExpressions : OrderedMap String String := ∅
  /-- The fulltext entries of the SELECT list, with the text that replaces them. -/
  placeholders : OrderedMap String String := ∅
deriving DecidableEq, Repr, Inhabited

namespace Query

/-! ### Tables -/

def setMainTable (q : Query) (ref : TableRef) : Query :=
  { q with
    mainAlias := ref.aliasName
    tableOfAlias := q.tableOfAlias.insert ref.aliasName ref.table
    source := ref }

/-- Adds a join under its alias; a join that has the alias already is replaced. -/
def addJoin (q : Query) (join : Join) : Query :=
  { q with
    tableOfAlias := q.tableOfAlias.insert join.aliasName join.table
    subtableAliases :=
      if join.aliasName ∈ q.subtableAliases then q.subtableAliases
      else q.subtableAliases ++ [join.aliasName]
    joins := q.joins.insert join.aliasName join }

/-- The table that an alias of the query stands for. -/
def table? (q : Query) (aliasName : String) : Option String :=
  q.tableOfAlias.get? aliasName

/-- The table behind a name; a name that is no alias stands for itself. -/
def tableOf (q : Query) (aliasName : String) : String :=
  (q.table? aliasName).getD aliasName

def mainTable (q : Query) : String :=
  (q.table? q.mainAlias).getD q.source.table

def isMainAlias (q : Query) (aliasName : String) : Bool :=
  q.mainAlias == aliasName

/-! ### Fields -/

/-- The alias under which a field of a table is selected. -/
def fieldAlias? (q : Query) (tableAlias field : String) : Option String :=
  (q.fieldAliases.get? tableAlias).bind (·.get? field)

/-- Starts the base-field record of a table alias. -/
def touchBaseFields (q : Query) (aliasName : String) : Query :=
  { q with baseFields := q.baseFields.insertNew aliasName default }

/-- The base-field record of a table alias. -/
def baseFieldsOf (q : Query) (aliasName : String) : BaseFields :=
  (q.baseFields.get? aliasName).getD default

/-- Records that a table has a field selected under `name`. -/
def noteResultName (q : Query) (aliasName name : String) : Query :=
  { q with baseFields := q.baseFields.upsert aliasName fun old => (old.getD default).note name }

/-! ### Conditions -/

/-- Adds a fragment to the WHERE clause; a blank one is left out. -/
def addCondition (q : Query) (text : String) : Query :=
  let fragment := Text.trim text
  if fragment.isEmpty then q else { q with conditions := q.conditions ++ [fragment] }

/-- Adds a condition in parentheses to the ON clause of a join; a blank one is left out. -/
def addJoinCondition (q : Query) (aliasName text : String) : Query :=
  let fragment := Text.trim text
  if fragment.isEmpty then q
  else
    { q with
      joins := q.joins.modify aliasName fun join =>
        { join with
          on := (if join.on.isEmpty then "" else join.on ++ " AND ") ++ "(" ++ fragment ++ ")" } }

end Query
end ContentQuery
