import ContentQuery.Condition.Json
import ContentQuery.Query.Basic

/-!
# Filters

A filter restricts and orders a query from outside: groups of conditions on a field, raw SQL, and
orderings.  It is exchanged as JSON.
-/

namespace ContentQuery

/-- How the groups on one table are combined. -/
inductive LogicalOperator where
  | and
  | or
deriving DecidableEq, Repr

/-- Conditions on one field, all of which must hold. -/
structure FilterGroup where
  /-- Table or alias; empty for the main table. -/
  table : String := ""
  field : String := ""
  conditions : List Condition := []
  /-- Whether the group goes to the WHERE clause whatever its table. -/
  main : Bool := false
  /-- Whether the group is there for information only. -/
  void : Bool := false
  label : Option String := none
deriving DecidableEq, Repr

structure FilterOrder where
  table : String := ""
  field : String := ""
  direction : String := ""
  engine : Option OrderEngine := none
deriving DecidableEq, Repr

structure Filter where
  groups : List FilterGroup := []
  operator : LogicalOperator := .and
  orders : List FilterOrder := []
  /-- SQL for the WHERE clause. -/
  rawSql : String := ""
deriving DecidableEq, Repr

/-! ## Names -/

namespace LogicalOperator

def word : LogicalOperator → String
  | and => "AND"
  | or => "OR"

def ofName? (name : String) : Option LogicalOperator :=
  if name = "AND" ∨ name = "and" then some and
  else if name = "OR" ∨ name = "or" then some or
  else none

end LogicalOperator

namespace OrderEngine

def name : OrderEngine → String
  | source => "source"
  | provider => "provider"

def ofName? (name : String) : Option OrderEngine :=
  if name = "source" then some source else if name = "provider" then some provider else none

end OrderEngine

namespace FilterOrder

def random : FilterOrder :=
  { direction := "RAND" }

def isRandom (order : FilterOrder) : Bool :=
  Text.equalsIgnoringCase order.direction "RAND"

end FilterOrder

/-! ## JSON -/

namespace FilterGroup

def ofJson? (j : Json) : Option FilterGroup := do
  match ← Json.fields? [["table"], ["field"], ["conditions"], ["main"], ["void"], ["string"]] j with
  | [table, field, conditions, main, void, label] => do
      let table ← Json.decodeOr "" Json.asText? table
      let field ← Json.decodeOr "" Json.asText? field
      let conditions ← Json.decodeOr [] (Json.asList? Condition.ofJson?) conditions
      let main ← Json.decodeOr false Json.asBool? main
      let void ← Json.decodeOr false Json.asBool? void
      let label ← Json.decodeOr none (Json.asOption? Json.asText?) label
      return { table, field, conditions, main, void, label }
  | _ => none

def toJson (g : FilterGroup) : Json :=
  .object
    [("table", .string g.table), ("field", .string g.field),
      ("conditions", .array (g.conditions.map Condition.toJson)), ("main", .bool g.main),
      ("void", .bool g.void), ("string", (g.label.map Json.string).getD .null)]

end FilterGroup

namespace FilterOrder

def ofJson? (j : Json) : Option FilterOrder := do
  match ← Json.fields? [["table"], ["field"], ["order"], ["engine"]] j with
  | [table, field, direction, engine] => do
      let table ← Json.decodeOr "" Json.asText? table
      let field ← Json.decodeOr "" Json.asText? field
      let direction ← Json.decodeOr "" Json.asText? direction
      let engine ←
        Json.decodeOr none (Json.asOption? (Json.asChoice? OrderEngine.ofName?)) engine
      return { table, field, direction, engine }
  | _ => none

def toJson (o : FilterOrder) : Json :=
  .object
    [("table", .string o.table), ("field", .string o.field), ("order", .string o.direction),
      ("engine", (o.engine.map fun e => Json.string e.name).getD .null)]

end FilterOrder

namespace Filter

/-- Reads a filter; three of its fields have two spellings each. -/
def ofJson? (j : Json) : Option Filter := do
  match ← Json.fields?
      [["filters"], ["logical_operator", "logicalOperator"], ["order_by", "orderby"],
        ["raw_sql", "rawSQL"]] j with
  | [groups, operator, orders, rawSql] => do
      let groups ← Json.decodeOr [] (Json.asList? FilterGroup.ofJson?) groups
      let operator ←
        Json.decodeOr LogicalOperator.and (Json.asChoice? LogicalOperator.ofName?) operator
      let orders ← Json.decodeOr [] (Json.asList? FilterOrder.ofJson?) orders
      let rawSql ← Json.decodeOr "" Json.asText? rawSql
      return { groups, operator, orders, rawSql }
  | _ => none

def toJson (f : Filter) : Json :=
  .object
    [("filters", .array (f.groups.map FilterGroup.toJson)),
      ("logical_operator", .string f.operator.word),
      ("order_by", .array (f.orders.map FilterOrder.toJson)), ("raw_sql", .string f.rawSql)]

end Filter
end ContentQuery
