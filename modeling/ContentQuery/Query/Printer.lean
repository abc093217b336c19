import ContentQuery.Query.Basic

/-!
# Queries as SQL text

The text depends on the query alone.  Fulltext placeholders of the SELECT list are replaced in
order of length, the longest first, so that no key eats into a longer one.
-/

namespace ContentQuery
namespace Query

/-! ## The SELECT list -/

/-- Longer keys come first, keys of one length in the order of their characters. -/
def placeholderBefore (a b : String × String) : Bool :=
  b.1.utf8ByteSize < a.1.utf8ByteSize ||
    (a.1.utf8ByteSize == b.1.utf8ByteSize && a.1 ≤ b.1)

/-- The placeholders in the order in which they are replaced. -/
def placeholderOrder (q : Query) : List (String × String) :=
  q.placeholders.entries.mergeSort placeholderBefore

/-- The entries of the SELECT list, separated by commas, with the placeholders filled in. -/
def selectText (q : Query) : String :=
  let entries := if q.selectList.isEmpty then q.select.map (·.text) else q.selectList
  q.placeholderOrder.foldl (fun text p => Text.replaceAll p.1 p.2 text) (Text.join ", " entries)

/-! ## Clauses -/

def joinText (join : Join) : String :=
  " " ++ join.kind.word ++ " JOIN " ++ join.table ++ " AS " ++ join.aliasName ++
    (if join.on.isEmpty then "" else " ON " ++ join.on)

def whereText (q : Query) : String :=
  if q.conditions.isEmpty then ""
  else " WHERE " ++ Text.join " AND " (q.conditions.map fun c => "(" ++ c ++ ")")

def groupText (q : Query) : String :=
  if q.groupBy.isEmpty then "" else " GROUP BY " ++ Text.join ", " q.groupBy

def orderText (q : Query) : String :=
  if q.orderBy.isEmpty then "" else " ORDER BY " ++ Text.join ", " q.orderBy

/-- An offset is written only together with a limit. -/
def limitText (q : Query) : String :=
  match q.limit, q.offset with
  | some limit, some offset => " LIMIT " ++ Text.decimal limit ++ " OFFSET " ++ Text.decimal offset
  | some limit, none => " LIMIT " ++ Text.decimal limit
  | none, _ => ""

/-! ## The statement -/

/-- The statement; without `withOrder` the ORDER BY clause is left to the caller. -/
def render (q : Query) (withOrder : Bool) : String :=
  "SELECT " ++ (if q.distinct then "DISTINCT " else "") ++ q.selectText ++
    " FROM " ++ q.source.table ++ " AS " ++ q.source.aliasName ++
    String.join (q.joins.values.map joinText) ++
    q.whereText ++ q.groupText ++ (if withOrder then q.orderText else "") ++ q.limitText

end Query
end ContentQuery
