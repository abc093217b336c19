import ContentQuery.Condition.Compile
import ContentQuery.Draft.Resolution
import ContentQuery.Filter.Basic
import ContentQuery.Query.SelectList

/-!
# Applying filters and id lists

A filter group is compiled to one condition in parentheses.  The groups on one alias are combined
by the operator of the filter and attached together.  Groups on unknown tables and conditions that
cannot be compiled are dropped with a diagnostic.
-/

namespace ContentQuery
namespace Draft

/-! ## Groups -/

/-- The expression that the field of a group stands for: that of a SELECT alias, or a column. -/
def groupField (q : Query) (aliasName field : String) : String :=
  (q.aliasExpressions.get? field).getD (aliasName ++ "." ++ field)

/-- The fulltext index that a field expression names, if it has one. -/
def namedIndex? (field : String) : Option String :=
  (Text.splitOn '.' field)[2]?

/-- Sets the text of a fulltext entry of the SELECT list, if there is one for the index. -/
def fillPlaceholder (d : Draft) (target : ConditionTarget) (text : String) : Draft :=
  match namedIndex? target.field with
  | some index =>
      let key := SelectList.placeholderKey target.aliasName index
      { d with query :=
          { d.query with placeholders := d.query.placeholders.modify key fun _ => text } }
  | none => d

/-- Adds one condition of a group to the text of those before it. -/
def addGroupCondition (p : Platform) (target : ConditionTarget) (state : Draft × String)
    (c : Condition) : Draft × String :=
  let (d, text) := state
  if c.value.isAll then state
  else match c.compile p.schema p.settings.minWordLength target with
    | .error e => (d.warn "Condition ignored" e.message, text)
    | .ok fragment =>
        if fragment.isEmpty then state
        else
          let text := (if text.isEmpty then "" else text ++ " AND ") ++ "(" ++ fragment ++ ")"
          (if c.operator.isFulltext then d.fillPlaceholder target text else d, text)

/-- A name of a table in a filter; an empty one means the main table. -/
def filterTable (q : Query) (table : String) : String :=
  if table.isEmpty then q.mainAlias else table

/-- The name of a group in diagnostics: its label, or else its place. -/
def groupComponent (index : Nat) (group : FilterGroup) : String :=
  match group.label with
  | some label => if label.isEmpty then "Filter - " ++ Text.decimal index else "Filter - " ++ label
  | none => "Filter - " ++ Text.decimal index

/-- The conditions collected for each alias. -/
abbrev Collected := OrderedMap String (List String)

/-- Compiles a group and collects its condition under the alias it applies to. -/
def addGroup (p : Platform) (state : Draft × Collected) (item : FilterGroup × Nat) :
    Draft × Collected :=
  let (d, collected) := state
  let (group, index) := item
  if group.void then state
  else match d.resolve (filterTable d.query group.table) (groupComponent index group) with
    | (d, .error _) =>
        (d.notify "Condition ignored" "The condition did not apply to a table used in the query.",
          collected)
    | (d, .ok aliasName) =>
        let target : ConditionTarget :=
          { field := groupField d.query aliasName group.field
            table := d.query.tableOf aliasName
            aliasName }
        let (d, text) := group.conditions.foldl (addGroupCondition p target) (d, "")
        if text.isEmpty then (d, collected)
        else
          (d, collected.upsert (if group.main then d.query.mainAlias else aliasName) fun texts =>
            texts.getD [] ++ ["(" ++ text ++ ")"])

/-! ## Orderings -/

/-- Adds an ordering of a filter. -/
def addFilterOrder (d : Draft) (order : FilterOrder) : Draft :=
  if order.isRandom then
    { d with query := { d.query with orderBy := d.query.orderBy ++ ["RAND()"] } }
  else
    let table := filterTable d.query order.table
    match d.resolve table
        ("Order clause - " ++ table ++ " - " ++ order.field ++ " - " ++ order.direction) with
    | (d, .error _) =>
        d.notify "Ordering ignored"
          "The ordering clause did not apply to a table used in the query."
    | (d, .ok aliasName) =>
        let field := aliasName ++ "." ++ order.field
        { d with query :=
            { d.query with
              orderBy := d.query.orderBy ++ [field ++ " " ++ order.direction]
              orderFields := d.query.orderFields ++
                [{ field, direction := order.direction, engine := order.engine,
                   aliasName := none }] } }

/-! ## Filters -/

/-- Applies a filter: the groups, then the raw SQL, then the orderings. -/
def addFilter (p : Platform) (filter : Filter) (d : Draft) : Draft :=
  let (d, collected) := filter.groups.zipIdx.foldl (addGroup p) (d, ∅)
  let joiner := " " ++ filter.operator.word ++ " "
  let d := collected.entries.foldl (fun d e => d.attach e.1 (Text.join joiner e.2)) d
  let d := { d with query := d.query.addCondition filter.rawSql }
  filter.orders.foldl addFilterOrder d

/-! ## Id lists -/

/-- The ids collected for each alias. -/
abbrev CollectedIds := OrderedMap String (List Nat)

/-- Splits an item into the table in front of its last underscore, if any, and the id. -/
def splitItem (item : String) : Option String × String :=
  match Text.splitLast? '_' item with
  | some (table, uid) => (some table, uid)
  | none => (none, item)

/-- Collects the id of one item under the alias it applies to. -/
def addItem (state : Draft × CollectedIds) (item : String) : Draft × CollectedIds :=
  let (d, ids) := state
  let (table, uid) := splitItem item
  match Text.word? uid with
  | none =>
      (d.notify "Id ignored" ("An item from the id list is not a valid uid: " ++ item), ids)
  | some uid =>
      let collect (d : Draft) (aliasName : String) : Draft × CollectedIds :=
        (d, ids.upsert aliasName fun old => old.getD [] ++ [uid])
      match table with
      | none => collect d d.query.mainAlias
      | some table =>
          match d.resolve table ("Id list - " ++ item) with
          | (d, .ok aliasName) => collect d aliasName
          | (d, .error _) =>
              (d.notify "Id ignored"
                ("An item from the id list did not apply, because table " ++ table ++
                  " is not used in the query."), ids)

/-- Restricts the query to the records in a list of ids, each `uid` or `table_uid`. -/
def addIdList (text : String) (d : Draft) : Draft :=
  let (d, ids) := (Text.items ',' text).foldl addItem (d, ∅)
  ids.entries.foldl
    (fun d e =>
      d.attach e.1 (e.1 ++ ".uid IN (" ++ Text.join "," (e.2.map Text.decimal) ++ ")"))
    d

end Draft
end ContentQuery
