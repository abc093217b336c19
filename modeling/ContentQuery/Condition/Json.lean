import ContentQuery.Condition.Basic
import ContentQuery.Json.Record

/-!
# Conditions in JSON

A condition is a record of an operator name, a value and a negation.  Values other than strings and
arrays are kept as their JSON text.
-/

namespace ContentQuery

namespace Operator

def ofJson? : Json → Option Operator
  | .string name => (ofText name).toOption
  | _ => none

def toJson (op : Operator) : Json :=
  .string op.name

end Operator

namespace ConditionValue

/-- A value as text; null is the special value for NULL. -/
def scalarText : Json → String
  | .string s => s
  | .null => null
  | other => other.compact

def ofJson : Json → ConditionValue
  | .array items => list (items.map scalarText)
  | other => single (scalarText other)

def toJson : ConditionValue → Json
  | single text => .string text
  | list texts => .array (texts.map .string)

end ConditionValue

namespace Condition

def ofJson? (j : Json) : Option Condition := do
  match ← Json.fields? [["operator"], ["value"], ["negate"]] j with
  | [some operator, some value, negate] => do
      let operator ← Operator.ofJson? operator
      let negate ← Json.decodeOr false Json.asBool? negate
      return { operator, value := .ofJson value, negate }
  | _ => none

def toJson (c : Condition) : Json :=
  .object [("operator", c.operator.toJson), ("value", c.value.toJson), ("negate", .bool c.negate)]

end Condition
end ContentQuery
