import ContentQuery.Draft.Basic
import ContentQuery.QueryError

/-!
# Finding the alias of a table

A name may be an alias of the query or the name of a table.  An alias stands for itself; a table
name stands for the first alias of that table, with a warning, since there may be others.
-/

namespace ContentQuery
namespace Draft

/-- The first alias that stands for a table. -/
def aliasOfTable? (q : Query) (table : String) : Option String :=
  (q.tableOfAlias.entries.find? fun e => e.2 == table).map Prod.fst

/-- The alias for a name that `component` asks for.  Answers are remembered, so each name is warned
about once. -/
def resolve (d : Draft) (name component : String) : Draft × Except QueryError String :=
  match d.resolved.get? name with
  | some aliasName => (d, .ok aliasName)
  | none =>
      if d.query.tableOfAlias.contains name then
        ({ d with resolved := d.resolved.insert name name }, .ok name)
      else match aliasOfTable? d.query name with
        | none => (d, .error (.unknownTable name component))
        | some aliasName =>
            let d := d.warn "Unreliable alias match"
              ("Potentially unreliable match of table " ++ name ++ " from component " ++ component)
            ({ d with resolved := d.resolved.insert name aliasName }, .ok aliasName)

end Draft
end ContentQuery
