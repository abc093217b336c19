import ContentQuery.QueryError

/-!
# Condition operators

The operators of a filter condition and their names.  A name is read without regard to case and
to blanks around it.
-/

namespace ContentQuery

inductive Comparison where
  | equal
  | notEqual
  /-- The spelling `!=`, kept apart so that it is written back as it was read. -/
  | bangEqual
  | greater
  | greaterOrEqual
  | less
  | lessOrEqual
deriving DecidableEq, Repr

namespace Comparison

def symbol : Comparison → String
  | equal => "="
  | notEqual => "<>"
  | bangEqual => "!="
  | greater => ">"
  | greaterOrEqual => ">="
  | less => "<"
  | lessOrEqual => "<="

/-- The symbol for a comparison with NULL. -/
def nullSymbol : Comparison → String
  | equal => "IS"
  | other => other.symbol

end Comparison

inductive Operator where
  | oneOf
  | andGroup
  | orGroup
  | like
  | start
  | finish
  | fulltext
  | fulltextNatural
  | comparison (c : Comparison)
deriving DecidableEq, Repr

namespace Operator

def name : Operator → String
  | oneOf => "in"
  | andGroup => "andgroup"
  | orGroup => "orgroup"
  | like => "like"
  | start => "start"
  | finish => "end"
  | fulltext => "fulltext"
  | fulltextNatural => "fulltext_natural"
  | comparison c => c.symbol

def all : List Operator :=
  [oneOf, andGroup, orGroup, like, start, finish, fulltext, fulltextNatural,
    comparison .equal, comparison .notEqual, comparison .bangEqual, comparison .greater,
    comparison .greaterOrEqual, comparison .less, comparison .lessOrEqual]

def isFulltext : Operator → Bool
  | fulltext | fulltextNatural => true
  | _ => false

/-- Lower case as far as names go: the Kelvin sign is the one character outside ASCII whose lower
case is an ASCII letter. -/
def lowerChar (c : Char) : Char :=
  if c = '\u212A' then 'k' else c.toLower

/-- Reads the name of an operator. -/
def ofText (text : String) : Except QueryError Operator :=
  let key := (Chars.trim text.toList).map lowerChar
  match all.find? fun op => op.name.toList == key with
  | some op => .ok op
  | none => .error (.unknownOperator text)

end Operator
end ContentQuery
