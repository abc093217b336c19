import ContentQuery.Platform.Schema
import ContentQuery.Query.Basic
import ContentQuery.QueryError
import ContentQuery.Scan.Token

/-!
# SELECT lists

A SELECT list is cut at its top-level commas.  Each piece gives an expression, an alias if there is
a top-level AS, and the marks of a function call or a wildcard.  Resolving the pieces against the
tables of a query and a schema gives the selected fields.
-/

namespace ContentQuery

/-- One entry of a SELECT list. -/
structure FieldSpec where
  expression : String
  aliasName : Option String
  isCall : Bool
  isWildcard : Bool
deriving DecidableEq, Repr

namespace SelectList

/-! ## Pieces -/

/-- What has been seen of the piece that begins at `start`. -/
structure Piece where
  start : Nat
  /-- Start and end of the latest top-level AS. -/
  aliasWord : Option (Nat × Nat) := none
  hasCall : Bool := false
  hasStar : Bool := false
deriving DecidableEq, Repr

/-- The entry that a piece gives if it ends at `stop`. -/
def Piece.spec (p : Piece) (text : List Char) (stop : Nat) : FieldSpec :=
  let expression := Chars.trim (Chars.slice text p.start ((p.aliasWord.map Prod.fst).getD stop))
  let aliasName := match p.aliasWord with
    | some (_, after) => Chars.trim (Chars.slice text after stop)
    | none => []
  { expression := String.ofList expression
    aliasName := if aliasName.isEmpty then none else some (String.ofList aliasName)
    isCall := p.hasCall
    isWildcard :=
      p.hasStar && !p.hasCall &&
        (expression == ['*'] || (Chars.stripTrailing? ['.', '*'] expression).isSome) }

/-- The effect of one character on the piece it belongs to. -/
def Piece.see (p : Piece) (s : Scan) (c : Char) : Piece :=
  if c = '*' ∧ s.isTopLevel c then { p with hasStar := true }
  else if c = '(' ∧ s.isOutside c then { p with hasCall := true }
  else p

/-- The entries of a text and the scan at its end.  The first `skip` characters of the list belong
to an AS that was found already. -/
def specsFrom (text : List Char) : (skip : Nat) → Piece → Scan → List Char → List FieldSpec × Scan
  | _, p, s, [] => ([p.spec text s.position], s)
  | skip + 1, p, s, c :: cs => specsFrom text skip p (s.pass c) cs
  | 0, p, s, c :: cs =>
      if c = ',' ∧ s.isTopLevel c then
        let rest := specsFrom text 0 { start := s.position + 1 } (s.pass c) cs
        (p.spec text s.position :: rest.1, rest.2)
      else
        match (if s.isTopLevel c then Keyword.as.length? s.last (c :: cs) else none) with
        | some (length + 1) =>
            specsFrom text length
              { p with aliasWord := some (s.position, s.position + (length + 1)) } (s.pass c) cs
        | _ => specsFrom text 0 (p.see s c) (s.step c) cs

/-- The entries of a SELECT list, or the reason why its text is not closed. -/
def split (text : List Char) : Except QueryError (List FieldSpec) :=
  let found := specsFrom text 0 { start := 0 } {} text
  let final := found.2
  if final.openQuote?.isSome then .error (.unterminatedLiteral final.quoteStart)
  else match final.strayClose with
    | some position => .error (.unbalancedParentheses position)
    | none =>
        if 0 < final.depth then .error (.unbalancedParentheses text.length)
        else .ok (found.1.filter fun spec => !spec.expression.isEmpty)

/-! ## Fulltext entries -/

/-- What announces a fulltext index in place of a column. -/
def fulltextMarks : List String :=
  ["fulltext:", "fulltext_natural:"]

/-- The index named by a fulltext entry. -/
def fulltextIndex? (field : String) : Option String :=
  (fulltextMarks.findSome? fun mark => Text.stripLeading? mark field).map Text.trim

/-- The placeholder of a fulltext index in a SELECT list. -/
def placeholderKey (tableAlias index : String) : String :=
  tableAlias ++ ".fulltext." ++ index

/-- Turns a fulltext entry into its placeholder, which stands for 1 until a filter uses the
index. -/
def registerFulltext (q : Query) (f : SelectField) : Query × SelectField :=
  match fulltextIndex? f.field with
  | some index =>
      ({ q with placeholders := q.placeholders.insert (placeholderKey f.tableAlias index) "1" },
        { f with field := "fulltext." ++ index })
  | none => (q, f)

/-! ## Resolution -/

/-- Selects every column of the table that a wildcard names. -/
def expandWildcard (schema : Schema) (q : Query) (expression : String) : Query :=
  let aliasName := match Text.stripTrailing? ".*" expression with
    | some aliasName => Text.trim aliasName
    | none => q.mainAlias
  let table := q.tableOf aliasName
  (schema.columns table).foldl
    (fun q column =>
      let q := q.noteResultName aliasName column
      { q with
        select := q.select ++
          [{ table, tableAlias := aliasName, field := column, aliasName := none,
             isCall := false }] })
    (q.touchBaseFields aliasName)

/-- The field that an entry without a wildcard names; `calls` counts the calls up to it. -/
def fieldOf (q : Query) (calls : Nat) (spec : FieldSpec) : SelectField :=
  if spec.isCall then
    { table := q.mainTable
      tableAlias := q.mainAlias
      field := spec.expression
      aliasName := some (spec.aliasName.getD ("function_" ++ Text.decimal calls))
      isCall := true }
  else match Text.splitOnce? '.' spec.expression with
    | some (aliasName, column) =>
        let aliasName := Text.trim aliasName
        { table := q.tableOf aliasName
          tableAlias := aliasName
          field := Text.trim column
          aliasName := spec.aliasName
          isCall := false }
    | none =>
        { table := q.mainTable
          tableAlias := q.mainAlias
          field := spec.expression
          aliasName := spec.aliasName
          isCall := false }

/-- Adds a field to the selection and records its names. -/
def addField (q : Query) (f : SelectField) : Query :=
  let q := q.noteResultName f.tableAlias f.resultName
  let q := match f.aliasName with
    | some aliasName =>
        { q with
          fieldAliases := q.fieldAliases.upsert f.tableAlias fun old =>
            (old.getD ∅).insert f.field aliasName
          aliasExpressions := q.aliasExpressions.insert aliasName f.expression }
    | none => q
  { q with select := q.select ++ [f] }

/-- Adds the fields of one entry to the query, which comes with the number of calls so far. -/
def resolve (schema : Schema) (state : Nat × Query) (spec : FieldSpec) : Nat × Query :=
  let (calls, q) := state
  if spec.isWildcard then (calls, expandWildcard schema q spec.expression)
  else
    let calls := if spec.isCall then calls + 1 else calls
    let field := fieldOf q calls spec
    let (q, field) := if field.isCall then (q, field) else registerFulltext q field
    (calls, addField q field)

/-- The text of a SELECT list without a leading DISTINCT, and whether there was one. -/
def splitDistinct (text : List Char) : Bool × List Char :=
  let text := Chars.trim text
  match Keyword.distinct.lengthAt? text 0 with
  | some length => (true, Chars.trim (text.drop length))
  | none => (false, text)

/-- Reads a SELECT list into a query whose tables are known.  After an error the query keeps the
DISTINCT that was read. -/
def parse (schema : Schema) (text : List Char) (q : Query) : Query × Except QueryError Unit :=
  let (distinct, list) := splitDistinct text
  let q := { q with distinct := q.distinct || distinct }
  if list.isEmpty then (q, .error .emptySelect)
  else match split list with
    | .ok specs => ((specs.foldl (resolve schema) (0, q)).2, .ok ())
    | .error e => (q, .error e)

end SelectList
end ContentQuery
