import ContentQuery.Query.Clause
import ContentQuery.Query.SelectList

/-!
# Reading statements

A statement is `SELECT list FROM tables clauses`.  The list ends at the last FROM on the top level,
so that a FROM inside a function call does not count.  Tables and clauses are read before the list,
whose entries refer to them.
-/

namespace ContentQuery

/-! ## Text preparation -/

/-- Whether an editor's line is blank or a comment. -/
def isSkippedLine (line : List Char) : Bool :=
  line.isEmpty || ['#'].isPrefixOf line || ['-', '-'].isPrefixOf line

/-- The statement in an editor's text: comment lines and blank lines are dropped, the others are
joined, and backquotes and final semicolons are removed. -/
def prepareText (text : String) : String :=
  let kept := ((Chars.lines text.toList).map Chars.trim).filter (!isSkippedLine ·)
  let joined := ([' '].intercalate kept).filter (· ≠ '`')
  String.ofList (Chars.trimEnd (Chars.dropTrailing (· == ';') (Chars.trim joined)))

namespace Query

/-! ## SELECT and FROM -/

/-- The SELECT list and the text after FROM. -/
def splitStatement (text : List Char) : Except QueryError (List Char × List Char) :=
  let tokens := (Scan.tokens [.select, .source] text).1
  match tokens.find? fun token => token.index == 0 && token.depth == 0 with
  | none => .error .missingSelect
  | some select =>
      let candidates := tokens.filter fun token => token.index == 1 && select.stop ≤ token.start
      match (candidates.reverse.find? (·.depth == 0)).or candidates.getLast? with
      | none => .error .missingFrom
      | some source => .ok (Chars.slice text select.stop source.start, text.drop source.stop)

/-- The query over the tables of a FROM clause; tables after the first are inner joins. -/
def ofTables (text : List Char) : Except QueryError Query :=
  match (Scan.splitTopLevel ',' text).map TableRef.ofText with
  | [] => .error .emptyFrom
  | main :: others =>
      .ok (others.foldl (fun q ref => q.addJoin (.bare .inner ref)) (setMainTable {} main))

/-! ## Clauses -/

/-- Reads one clause into a query. -/
def addClause (q : Query) (segment : Segment) : Except QueryError Query :=
  match segment.clause with
  | .source => .ok q
  | .join kind => .ok (q.addJoin (.ofText kind segment.text))
  | .condition => .ok (q.addCondition (String.ofList segment.text))
  | .groupBy => .ok { q with groupBy := q.groupBy ++ readGroup segment.text }
  | .orderBy =>
      let order := readOrder segment.text
      .ok { q with orderBy := q.orderBy ++ order.1, orderFields := q.orderFields ++ order.2 }
  | .limit => do
      let (limit, offset) ← RowClause.readLimit segment.text
      return { q with limit := some limit, offset := offset.or q.offset }
  | .offset => do
      let offset ← RowClause.readOffset segment.text
      return { q with offset := some offset }

/-- The text of the FROM clause among the clauses of a statement. -/
def tablesText (segments : List Segment) : List Char :=
  ((segments.find? (·.clause == .source)).map (·.text)).getD []

/-! ## Statements -/

/-- Reads a statement; wildcards stand for the columns that the schema gives. -/
def parse (schema : Schema) (text : String) : Except QueryError Query := do
  let (list, rest) ← splitStatement text.toList
  let segments := Segment.ofText rest
  let q ← ofTables (tablesText segments)
  let q ← segments.foldlM addClause q
  match SelectList.parse schema list q with
  | (q, .ok ()) => return q
  | (_, .error e) => throw e

end Query
end ContentQuery
