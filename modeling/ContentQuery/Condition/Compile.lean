import ContentQuery.Condition.Basic
import ContentQuery.Condition.Literal
import ContentQuery.Fulltext.Match

/-!
# Conditions as SQL

The fragment of SQL that a condition on a column stands for.  A value that restricts nothing gives
an empty fragment.
-/

namespace ContentQuery

/-- The column that a condition is about. -/
structure ConditionTarget where
  /-- The field as written in SQL. -/
  field : String
  /-- True name of the table. -/
  table : String
  aliasName : String
deriving DecidableEq, Repr

namespace ConditionTarget

/-- The index in `alias.fulltext.index`, or else the last part of the field. -/
def fulltextIndex (target : ConditionTarget) : String :=
  let parts := Text.splitOn '.' target.field
  match parts with
  | [_, "fulltext", index] => index
  | _ => parts.getLast?.getD target.field

end ConditionTarget

namespace Condition

/-! ## Operators -/

/-- The test of a LIKE operator for one value. -/
def likeTest (field : String) (op : Operator) (value : String) : String :=
  let text := Literal.escapeLike value
  let pattern := match op with
    | .start => text ++ "%"
    | .finish => "%" ++ text
    | _ => "%" ++ text ++ "%"
  field ++ " LIKE " ++ Literal.fullQuote pattern

/-- The comparison with one value. -/
def comparisonTest (field : String) (c : Comparison) (value : String) : String :=
  if value = ConditionValue.emptyText then field ++ " " ++ c.symbol ++ " ''"
  else if value = ConditionValue.null then field ++ " " ++ c.nullSymbol ++ " NULL"
  else field ++ " " ++ c.symbol ++ " " ++ Literal.fullQuote value

def negated (negate : Bool) (fragment : String) : String :=
  if negate then "NOT (" ++ fragment ++ ")" else fragment

/-! ## Compilation -/

/-- The fragment for a condition; fulltext searches need the schema and the least word length. -/
def compile (schema : Schema) (minLength : Nat) (target : ConditionTarget) (c : Condition) :
    Except QueryError String :=
  let field := target.field
  if c.value.isAll then .ok ""
  else match c.operator with
    | .oneOf =>
        .ok (field ++ (if c.negate then " NOT" else "") ++ " IN (" ++
          Text.join "," (c.value.items.map Literal.fullQuote) ++ ")")
    | .andGroup =>
        .ok (negated c.negate (Text.join " AND " (c.value.items.map (Literal.inList field))))
    | .orGroup =>
        .ok (negated c.negate (Text.join " OR " (c.value.items.map (Literal.inList field))))
    | .comparison op =>
        .ok (negated c.negate (Text.join " OR " (c.value.texts.map (comparisonTest field op))))
    | .fulltext | .fulltextNatural =>
        Fulltext.condition schema minLength
          { table := target.table
            aliasName := target.aliasName
            index := target.fulltextIndex
            text := c.value.asText
            natural := c.operator == .fulltextNatural
            negate := c.negate }
    | op => .ok (negated c.negate (Text.join " OR " (c.value.texts.map (likeTest field op))))

end Condition
end ContentQuery
