import ContentQuery.Fulltext.Percent
import ContentQuery.Fulltext.SearchTerms
import ContentQuery.Platform.Schema
import ContentQuery.QueryError

/-!
# Fulltext conditions

`MATCH (columns) AGAINST (terms)` over a fulltext index of a table, in boolean or natural mode.
-/

namespace ContentQuery
namespace Fulltext

/-- A search in a fulltext index. -/
structure Search where
  table : String
  aliasName : String
  index : String
  /-- The search string, percent-encoded. -/
  text : String
  natural : Bool
  negate : Bool
deriving DecidableEq, Repr

/-- Replaces the table by the alias in front of the columns of an index. -/
def qualify (columns table aliasName : String) : String :=
  if table = aliasName then columns
  else
    Text.join "," <| (Text.splitOn ',' columns).map fun column =>
      let column := Text.trim column
      match Text.stripLeading? (table ++ ".") column with
      | some bare => aliasName ++ "." ++ bare
      | none => column

/-- The terms of a search: as a phrase in natural mode, else as boolean terms. -/
def terms (minLength : Nat) (natural : Bool) (text : String) : String :=
  let decoded := Percent.decodeSearch text
  if natural then Literal.addSlashes (Text.trim decoded)
  else SearchTerms.process minLength decoded

/-- The condition for a search, or the reason why there is none. -/
def condition (schema : Schema) (minLength : Nat) (s : Search) : Except QueryError String :=
  match (schema.fulltextIndexes s.table).get? s.index with
  | none => .error (.unknownIndex s.table s.index)
  | some columns =>
      let terms := terms minLength s.natural s.text
      if terms.isEmpty then .error .emptySearch
      else
        .ok ((if s.negate then "NOT " else "") ++ "MATCH(" ++ qualify columns s.table s.aliasName ++
          ") AGAINST('" ++ terms ++ "'" ++ (if s.natural then "" else " IN BOOLEAN MODE") ++ ")")

end Fulltext
end ContentQuery
