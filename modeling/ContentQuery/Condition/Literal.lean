import ContentQuery.Text

/-!
# String literals of the database

Escaping of values that are written between quotes, the wildcards of LIKE, and membership in a
list column.
-/

namespace ContentQuery
namespace Literal

/-! ## Characters -/

/-- The escape of one character inside a quoted literal. -/
def quoteChar (c : Char) : List Char :=
  if c = '\x00' then ['\\', '0']
  else if c = '\n' then ['\\', 'n']
  else if c = '\r' then ['\\', 'r']
  else if c = '\x1a' then ['\\', 'Z']
  else if c = '\\' ∨ c = '\'' ∨ c = '"' then ['\\', c]
  else [c]

/-- The escape of one character where only quotes, backslashes and NUL are special. -/
def slashChar (c : Char) : List Char :=
  if c = '\x00' then ['\\', '0']
  else if c = '\\' ∨ c = '\'' ∨ c = '"' then ['\\', c]
  else [c]

/-- The escape of one character in a LIKE pattern. -/
def likeChar (c : Char) : List Char :=
  if c = '%' ∨ c = '_' then ['\\', c] else [c]

/-! ## Texts -/

/-- The body of a single-quoted literal. -/
def quote (s : String) : String :=
  String.ofList (s.toList.flatMap quoteChar)

/-- A single-quoted literal. -/
def fullQuote (s : String) : String :=
  "'" ++ quote s ++ "'"

/-- Escapes quotes, backslashes and NUL, and leaves all else as it is. -/
def addSlashes (s : String) : String :=
  String.ofList (s.toList.flatMap slashChar)

/-- Escapes the wildcards of LIKE. -/
def escapeLike (s : String) : String :=
  String.ofList (s.toList.flatMap likeChar)

/-- The test that a column with a comma-separated list has `value` in it. -/
def inList (field value : String) : String :=
  "FIND_IN_SET('" ++ quote value ++ "'," ++ field ++ ")"

end Literal
end ContentQuery
