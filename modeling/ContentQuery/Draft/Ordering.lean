import ContentQuery.Draft.Basic

/-!
# Who sorts the rows

In another language than the default one, text is sorted right only after the records of that
language were laid over the default ones.  If a query is ordered by such text, the database does
not sort; the fields to sort by are selected instead, and the caller sorts.
-/

namespace ContentQuery
namespace Draft

/-- Fields that stand for no column. -/
def isUnsortable (field : String) : Bool :=
  field == "RAND()" || field == "NULL" || '(' ∈ field.toList

/-- A column to select for the caller to sort by. -/
structure SortColumn where
  table : String
  aliasName : String
  field : String
deriving DecidableEq, Repr

/-- What follows from one order field. -/
structure OrderDecision where
  field : OrderField
  /-- Whether the database cannot sort by it. -/
  byCaller : Bool
  /-- The column behind it, if it is not selected. -/
  missing : Option SortColumn
deriving DecidableEq, Repr

/-- The table alias and the column that an order field is written with. -/
def orderColumn (mainAlias field : String) : String × String :=
  match Text.splitOnce? '.' field with
  | some (aliasName, column) => (Text.trim aliasName, Text.trim column)
  | none => (mainAlias, Text.trim field)

/-- Whether the caller must sort by a column: the field says so, or it says nothing and the column
holds text of a table with several languages. -/
def mustSortByCaller (p : Platform) (engine : Option OrderEngine) (table column : String) : Bool :=
  match engine with
  | some .provider => true
  | some .source => false
  | none => p.policy.languageStorage table != .none && p.schema.isTextColumn table column

/-- Decides on one order field.  A column selected under an alias is replaced by the alias, and the
name of a result column by the column it comes from. -/
def decideOrder (p : Platform) (d : Draft) (f : OrderField) : OrderDecision :=
  let (aliasName, column) := orderColumn d.query.mainAlias f.field
  if isUnsortable column then { field := f, byCaller := false, missing := none }
  else
    let selectedAs := d.query.fieldAlias? aliasName column
    let field := match selectedAs with
      | some name => { f with field := name, aliasName := some column }
      | none => f
    let name := selectedAs.getD column
    let (aliasName, column) := match d.origins.get? name with
      | some origin => (origin.tableAlias, origin.field)
      | none => (aliasName, name)
    let table := d.query.tableOf aliasName
    { field
      byCaller := mustSortByCaller p f.engine table column
      missing :=
        if d.hasField aliasName column || selectedAs.isSome then none
        else some { table, aliasName, field := column } }

/-- Decides who sorts, and selects the columns to sort by if it is the caller. -/
def decideOrdering (p : Platform) (d : Draft) : Draft :=
  let d := { d with sortsInDatabase := true }
  if d.query.orderFields.isEmpty || p.context.language == 0 then d
  else
    let decisions := d.query.orderFields.map (decideOrder p d)
    let d := { d with query := { d.query with orderFields := decisions.map (·.field) } }
    if decisions.any (·.byCaller) then
      let d := (decisions.filterMap (·.missing)).foldl
        (fun d c => d.select c.table c.aliasName c.field (c.aliasName ++ "$" ++ c.field)) d
      { d with sortsInDatabase := false }
    else d

end Draft
end ContentQuery
