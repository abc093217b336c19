import ContentQuery.Query.Basic
import ContentQuery.QueryError
import ContentQuery.Scan.Token

/-!
# Clauses

The clauses of a statement after its main table, and the reading of each of them: table
references, joins with their row limit, row counts, and ordering.
-/

namespace ContentQuery

open Scan (splitTopLevel splitAtKeyword)

/-! ## Clause keywords -/

/-- The parts of a statement behind FROM. -/
inductive Clause where
  | source
  | join (kind : JoinKind)
  | condition
  | groupBy
  | orderBy
  | limit
  | offset
deriving DecidableEq, Repr

namespace Clause

/-- The clauses that a keyword opens, in the order in which the keywords are tried. -/
def openers : List (Clause × Keyword) :=
  [(join .inner, .innerJoin), (join .left, .leftJoin), (join .right, .rightJoin),
    (condition, .condition), (groupBy, .groupBy), (orderBy, .orderBy), (limit, .limit),
    (offset, .offset)]

/-- The clause opened by the keyword at a place of `openers`. -/
def atIndex (index : Nat) : Clause :=
  ((openers[index]?).map Prod.fst).getD source

end Clause

/-- A clause and its text without the keyword. -/
structure Segment where
  clause : Clause
  text : List Char
deriving DecidableEq, Repr

namespace Segment

/-- Cuts a text at clause keywords; `clause` is the clause in force at position `start`. -/
def cut (text : List Char) (clause : Clause) (start : Nat) : List Token → List Segment
  | [] => [⟨clause, Chars.trim (text.drop start)⟩]
  | token :: tokens =>
      ⟨clause, Chars.trim (Chars.slice text start token.start)⟩ ::
        cut text (.atIndex token.index) token.stop tokens

/-- The clauses of the text behind FROM; the first one is the list of tables. -/
def ofText (text : List Char) : List Segment :=
  cut text .source 0
    ((Scan.tokens (Clause.openers.map Prod.snd) text).1.filter (·.depth == 0))

end Segment

/-! ## Tables and joins -/

/-- Reads `table [AS alias]`; a missing alias is the table name. -/
def TableRef.ofText (text : List Char) : TableRef :=
  let parts := splitAtKeyword .as text
  let table := String.ofList parts.1
  match parts.2 with
  | some (c :: cs) => ⟨table, String.ofList (c :: cs)⟩
  | _ => ⟨table, table⟩

namespace Join

/-- Removes `MAX` and the blank or start of text before it from the end of a text, whose blanks
after the keyword are gone already. -/
def beforeMax? (text : List Char) : Option (List Char) :=
  match text.reverse with
  | x :: a :: m :: before =>
      if [m, a, x].map Char.toUpper = Keyword.max.letters then
        match before with
        | [] => some []
        | b :: rest => if Chars.isBlank b then some rest.reverse else none
      else none
  | _ => none

/-- Splits `MAX n` off the end of the text of an ON clause. -/
def splitRowLimit (text : List Char) : List Char × Option Nat :=
  let body := Chars.trimEnd text
  let digits := (body.reverse.takeWhile Char.isDigit).reverse
  let before := (body.reverse.dropWhile Char.isDigit).reverse
  let spaced := Chars.trimEnd before
  match Chars.word? digits, beforeMax? spaced with
  | some limit, some condition =>
      if spaced.length < before.length then (Chars.trim condition, some limit)
      else (Chars.trim text, none)
  | _, _ => (Chars.trim text, none)

/-- Reads the text after a join keyword: `table [AS alias] [ON condition [MAX n]]`. -/
def ofText (kind : JoinKind) (text : List Char) : Join :=
  let parts := splitAtKeyword .on text
  let join := bare kind (.ofText parts.1)
  match parts.2 with
  | some condition =>
      let limited := splitRowLimit condition
      { join with on := String.ofList limited.1, rowLimit := limited.2 }
  | none => join

end Join

/-! ## Row counts -/

namespace RowClause

/-- Reads one row count of a clause. -/
def readCount (clause : RowClause) (text : List Char) : Except QueryError Nat :=
  let digits := Chars.trim text
  match Chars.word? digits with
  | some n => .ok n
  | none => .error (.invalidLimit clause (String.ofList digits))

/-- Reads `count` or `offset, count` as the count and the offset. -/
def readLimit (text : List Char) : Except QueryError (Nat × Option Nat) :=
  match splitTopLevel ',' text with
  | [count] => do
      let n ← limit.readCount count
      return (n, none)
  | [start, count] => do
      let n ← limit.readCount count
      let m ← limit.readCount start
      return (n, some m)
  | _ => .error (.invalidLimit .limit (String.ofList (Chars.trim text)))

def readOffset (text : List Char) : Except QueryError Nat :=
  offset.readCount text

end RowClause

/-! ## Ordering and grouping -/

namespace OrderField

/-- An ordering in the given direction, decided by no one yet. -/
def plain (field direction : String) : OrderField :=
  { field, direction, engine := none, aliasName := none }

/-- Reads `field [ASC|DESC]`; without a direction the order is ascending. -/
def ofText (part : List Char) : OrderField :=
  match Chars.splitLast? Chars.isBlank part with
  | some (field, direction) =>
      let direction := direction.map Char.toUpper
      if direction = "ASC".toList ∨ direction = "DESC".toList then
        plain (String.ofList (Chars.trim field)) (String.ofList direction)
      else plain (String.ofList part) "ASC"
  | none => plain (String.ofList part) "ASC"

end OrderField

/-- The parts of an ORDER BY clause as written, and as fields with directions. -/
def readOrder (text : List Char) : List String × List OrderField :=
  let parts := splitTopLevel ',' text
  (parts.map String.ofList, parts.map OrderField.ofText)

def readGroup (text : List Char) : List String :=
  (splitTopLevel ',' text).map String.ofList

end ContentQuery
