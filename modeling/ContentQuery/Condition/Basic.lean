import ContentQuery.Condition.Operator

/-!
# Filter conditions

A condition has an operator, a value and possibly a negation.  Three values are special: one that
restricts nothing, one for the empty string and one for NULL.
-/

namespace ContentQuery

inductive ConditionValue where
  | single (text : String)
  | list (texts : List String)
deriving DecidableEq, Repr

namespace ConditionValue

/-- The value that stands for no restriction. -/
def everything : String := "\\all"

/-- The value that is compared as the empty string. -/
def emptyText : String := "\\empty"

/-- The value that is compared as NULL. -/
def null : String := "\\null"

/-- Whether the value is one text, namely `special`. -/
def isSpecial (v : ConditionValue) (special : String) : Bool :=
  match v with
  | single text => text == special
  | list _ => false

def isAll (v : ConditionValue) : Bool :=
  v.isSpecial everything

/-- The value as it stands. -/
def texts : ConditionValue → List String
  | single text => [text]
  | list texts => texts

/-- The values of a list condition: a single text is split at commas. -/
def items : ConditionValue → List String
  | single text => Text.items ',' text
  | list texts => texts

/-- The value as one text, with blanks between the members of a list. -/
def asText : ConditionValue → String
  | single text => text
  | list texts => Text.join " " texts

end ConditionValue

structure Condition where
  operator : Operator
  value : ConditionValue
  negate : Bool
deriving DecidableEq, Repr

end ContentQuery
