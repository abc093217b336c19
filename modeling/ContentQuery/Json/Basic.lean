import ContentQuery.Decimal.Shortest
import ContentQuery.OrderedMap

/-!
# JSON values

Values as written: members of an object keep their order and may repeat a key.  A part that is
well-formed on the page but stands for no value is `unreadable`; it does no harm where it is
skipped.
-/

namespace ContentQuery

inductive Number where
  | natural (n : Nat)
  /-- The integer `-n`. -/
  | negative (n : Nat)
  | real (isNegative : Bool) (magnitude : Binary64)
deriving DecidableEq, Repr

inductive Json where
  | null
  | bool (b : Bool)
  | number (n : Number)
  | string (s : String)
  | array (items : List Json)
  | object (members : List (String × Json))
  /-- A number out of range, or a text with half a surrogate pair. -/
  | unreadable
deriving Repr, Inhabited

/-! ## Text -/

def Number.text : Number → String
  | .natural n => String.ofList (Chars.decimal n)
  | .negative n => String.ofList ('-' :: Chars.decimal n)
  | .real isNegative magnitude =>
      String.ofList ((if isNegative then ['-'] else []) ++ Decimal.text magnitude)

namespace Json

def hexDigit (n : Nat) : Char :=
  if n < 10 then Char.ofNat (0x30 + n) else Char.ofNat (0x57 + n)

/-- A character inside a string. -/
def escapeChar (c : Char) : List Char :=
  if c = '"' then ['\\', '"']
  else if c = '\\' then ['\\', '\\']
  else if c = '\x08' then ['\\', 'b']
  else if c = '\x0c' then ['\\', 'f']
  else if c = '\n' then ['\\', 'n']
  else if c = '\r' then ['\\', 'r']
  else if c = '\t' then ['\\', 't']
  else if c.toNat < 0x20 then
    ['\\', 'u', '0', '0', hexDigit (c.toNat / 16), hexDigit (c.toNat % 16)]
  else [c]

def quote (s : String) : String :=
  String.ofList ('"' :: s.toList.flatMap escapeChar ++ ['"'])

mutual

/-- The text of a value without blanks. -/
def compact : Json → String
  | .null => "null"
  | .bool b => if b then "true" else "false"
  | .number n => n.text
  | .string s => quote s
  | .array items => "[" ++ compactItems items ++ "]"
  | .object members => "\x7b" ++ compactMembers members ++ "\x7d"
  | .unreadable => "null"

def compactItems : List Json → String
  | [] => ""
  | [item] => compact item
  | item :: next :: rest => compact item ++ "," ++ compactItems (next :: rest)

def compactMembers : List (String × Json) → String
  | [] => ""
  | [(key, value)] => quote key ++ ":" ++ compact value
  | (key, value) :: next :: rest =>
      quote key ++ ":" ++ compact value ++ "," ++ compactMembers (next :: rest)

end

/-! ## Values with distinct keys -/

/-- Greatest number of arrays and objects inside one another in a value that is kept. -/
def maxDepth : Nat := 127

mutual

/-- The value with one member for each key: the last value at the first place.  There is none if a
part is unreadable or nested deeper than `depth`. -/
def settle? (depth : Nat) : Json → Option Json
  | .array items =>
      match depth with
      | 0 => none
      | depth + 1 => (settleItems? depth items).map .array
  | .object members =>
      match depth with
      | 0 => none
      | depth + 1 =>
          (settleMembers? depth members).map fun ms => .object (OrderedMap.ofList ms).entries
  | .unreadable => none
  | other => some other

def settleItems? (depth : Nat) : List Json → Option (List Json)
  | [] => some []
  | item :: rest => do
      let item ← settle? depth item
      let rest ← settleItems? depth rest
      return item :: rest

def settleMembers? (depth : Nat) : List (String × Json) → Option (List (String × Json))
  | [] => some []
  | (key, value) :: rest => do
      let value ← settle? depth value
      let rest ← settleMembers? depth rest
      return (key, value) :: rest

end

end Json
end ContentQuery
