import ContentQuery.Text

/-!
# Reasons to refuse a query

Each cause has a fixed code, by which a front end finds its own wording, and a message in English.
-/

namespace ContentQuery

/-- The clauses that hold a row count. -/
inductive RowClause where
  | limit
  | offset
deriving DecidableEq, Repr

def RowClause.word : RowClause → String
  | .limit => "LIMIT"
  | .offset => "OFFSET"

inductive QueryError where
  | missingSelect
  | missingFrom
  | emptyFrom
  | emptySelect
  | unbalancedParentheses (position : Nat)
  | unterminatedLiteral (position : Nat)
  | invalidLimit (clause : RowClause) (value : String)
  | missingUid
  | unknownTable (table component : String)
  | unknownIndex (table index : String)
  | emptySearch
  | unknownOperator (text : String)
deriving DecidableEq, Repr

namespace QueryError

def code : QueryError → Nat
  | missingSelect => 1272556228
  | missingFrom => 1272556601
  | emptyFrom => 1280323639
  | emptySelect => 1280323976
  | unbalancedParentheses _ => 1272954424
  | unterminatedLiteral _ => 1272954425
  | invalidLimit _ _ => 1272954426
  | missingUid => 1313354033
  | unknownTable _ _ => 1291753564
  | unknownIndex _ _ => 1421769189
  | emptySearch => 1423068811
  | unknownOperator _ => 1291753565

def message : QueryError → String
  | missingSelect => "Missing SELECT keyword"
  | missingFrom => "Missing FROM keyword"
  | emptyFrom => "No table defined"
  | emptySelect => "Nothing SELECTed"
  | unbalancedParentheses position =>
      "Unbalanced parentheses in SELECT list at position " ++ Text.decimal position
  | unterminatedLiteral position =>
      "Unterminated string literal starting at position " ++ Text.decimal position
  | invalidLimit clause value => "Invalid " ++ clause.word ++ " value '" ++ value ++ "'"
  | missingUid => "A uid field must be selected when using DISTINCT"
  | unknownTable table component =>
      "No match found for table " ++ table ++ " from component " ++ component
  | unknownIndex table index => "Table " ++ table ++ " has no index \"" ++ index ++ "\""
  | emptySearch => "Empty fulltext search condition"
  | unknownOperator text => "Unknown condition operator '" ++ text ++ "'"

end QueryError
end ContentQuery
