import ContentQuery.Draft.Analysis
import ContentQuery.Draft.Ordering
import ContentQuery.Query.Printer

/-!
# Building the statement

The final text of a draft, and the check of a text that an editor typed.
-/

namespace ContentQuery
namespace Draft

/-- The statement as the draft stands. -/
def sql (d : Draft) : String :=
  d.query.render d.sortsInDatabase

/-- Decides on the ordering and gives the statement. -/
def build (p : Platform) (d : Draft) : Draft × String :=
  let d := d.decideOrdering p
  (d, d.sql)

/-- The statements that a checked text leads to. -/
structure QueryCheck where
  query : String
  /-- The same statement for one row only, to be tried on the database. -/
  validationQuery : String
  warning : String
deriving DecidableEq, Repr

/-- Reads a text and builds its statement, once as it is and once for one row. -/
def check (p : Platform) (text : String) (d : Draft) : Draft × Except QueryError QueryCheck :=
  match d.parse p text with
  | (d, .error e) => (d, .error e)
  | (d, .ok warning) =>
      let (d, query) := d.build p
      let (d, validationQuery) := (d.setLimit 1).build p
      (d, .ok { query, validationQuery, warning })

end Draft
end ContentQuery
